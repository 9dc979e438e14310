import WordModel.Server.Bounded

/-! Every word that is typed to a client of the model server gets its prediction, and after the
last of them nothing is left to be done. -/

namespace WordModel.BoundedCTModel

open Checked ContextTree Decimal Endpoint ModelMultiplexer ModelServer Packet Stretches

lemma learner_words (cs : Bytes) : (learner cs).words = entries (characters cs) := by
  induction cs using List.reverseRecOn with
  | nil => rfl
  | append_singleton cs c ih =>
    rw [learner_concat, characters_concat, learnerServed]
    dsimp only
    split
    · rw [List.append_nil]
      exact ih
    · change Learner.enter (learner cs).words [c] = _
      rw [ih]
      exact enter_entries (List.cons_ne_nil c []) _

lemma learner_texts (cs : Bytes) (bodies : List Bytes) :
    ∀ text ∈ Service.dialogue learnerServed (learner cs) bodies, text.length ≤ 511 ∧ 0 ∉ text := by
  have hwords (cs : Bytes) : ∀ w ∈ (learner cs).words, w.length ≤ 511 ∧ 0 ∉ w := by
    intro w hw
    rw [learner_words] at hw
    rcases mem_entries.mp hw with rfl | rfl | hw
    · exact ⟨Nat.zero_le _, List.not_mem_nil⟩
    · decide
    · obtain ⟨c, hc, rfl⟩ := List.mem_map.mp hw
      have hzero := (of_decide_eq_true (List.mem_filter.mp hc).2).1
      refine ⟨?_, fun hmem => hzero (List.mem_singleton.mp hmem).symm⟩
      rw [List.length_singleton]
      decide
  have hputc (body : Bytes) (cs : Bytes) :
      body.foldl learnerServed.putc (learner cs) = learner (cs ++ body) := by
    induction body generalizing cs with
    | nil => rw [List.append_nil, List.foldl_nil]
    | cons c body ih =>
      rw [List.foldl_cons, ← learner_concat, ih, List.append_assoc, List.singleton_append]
  induction bodies generalizing cs with
  | nil => exact fun text hmem => absurd hmem List.not_mem_nil
  | cons body bodies ih =>
    intro text hmem
    rw [Service.dialogue, hputc] at hmem
    rcases List.mem_append.mp hmem with hmem | hmem
    · split at hmem
      · obtain rfl := List.mem_singleton.mp hmem
        change (List.getD (learner (cs ++ body)).words (learner (cs ++ body)).prediction []).length ≤ 511 ∧
          0 ∉ List.getD (learner (cs ++ body)).words (learner (cs ++ body)).prediction []
        by_cases hlt : (learner (cs ++ body)).prediction < (learner (cs ++ body)).words.length
        · rw [List.getD_eq_getElem _ _ hlt]
          exact hwords _ _ (List.getElem_mem hlt)
        · rw [List.getD_eq_default _ _ (not_lt.mp hlt)]
          exact ⟨Nat.zero_le _, List.not_mem_nil⟩
      · cases hmem
    · exact ih (cs ++ body) text hmem

section

variable (pastEnd : Graph → ℕ → ℕ → ℕ) (graphviz : Drawing Word → Bytes) (predictionId : ℕ)

lemma served_dialogue (hid : predictionId ≠ 20) (interface : Bool) (bodies : List Bytes) :
    Service.dialogue (served pastEnd graphviz predictionId)
      (started pastEnd predictionId hid interface) bodies =
        Service.dialogue learnerServed .initial bodies :=
  (multiplexer_tracked pastEnd graphviz predictionId).refines.dialogue
    (started_learned pastEnd predictionId hid interface) bodies

lemma served_texts (hid : predictionId ≠ 20) (interface : Bool) (bodies : List Bytes) :
    ∀ text ∈ Service.dialogue (served pastEnd graphviz predictionId)
      (started pastEnd predictionId hid interface) bodies, text.length ≤ 511 ∧ 0 ∉ text := by
  rw [served_dialogue]
  exact learner_texts [] bodies

theorem typing_law (hid : predictionId ≠ 20) (interface : Bool) (corpus : Option Bytes)
    (blank : ℕ → Packet) (memory : Fin (maxBodyLength + 1) → UInt8) (stream : Bytes)
    (hfits : ∀ r ∈ runs isSpace stream, StdinTcp.Fits r) :
    let server := Service.peer (served pastEnd graphviz predictionId) corpus
    let predictions := (Service.dialogue learnerServed .initial
      (((runs isSpace stream).map StdinTcp.asked).map (·.2))).map ServiceClient.coloured
    ∃ reader, StdinTcp.readLoop blank (StdinTcp.start memory) stream = .ok reader ∧
      ∀ (p q : Packet) (events : List (Exchange.Event Service.Event)) (x : Exchange (Service _)),
        Exchange.Reached server (Exchange.start p reader.queued
          (Service.start q (started pastEnd predictionId hid interface))) events x →
        x.client.printed <+: predictions ∧
        (∀ e, e.CanOccur server x → ∃ y, Exchange.step server x e = .ok y) ∧
        ((∀ e ∈ events, ¬ e.Fails server) → Exchange.Done server x →
          x.client.printed = predictions) := by
  intro server predictions
  obtain ⟨reader, hreader, hqueue⟩ := StdinTcp.readLoop_requests blank memory hfits
  refine ⟨reader, hreader, fun p q events x h => ?_⟩
  have hprinted := Service.printed_dialogue (Service.asked_predict _)
    (served_texts pastEnd graphviz predictionId hid interface _)
    (fun r hr => (StdinTcp.asked_sendable hfits r hr).1) hqueue h
  rwa [served_dialogue] at hprinted

end

theorem typing_law_hi :
    let blank := Packet.fresh (List.replicate 517 0) (by rw [List.length_replicate]; rfl)
    let server := Service.peer (served (fun _ _ _ => 0) (fun _ => []) 7) none
    let stream : Bytes := [97, 98, 97, 32]
    ∃ reader, StdinTcp.readLoop (fun _ => blank) (StdinTcp.start fun _ => 0) stream = .ok reader ∧
      ∃ events x, Exchange.Reached server (Exchange.start blank reader.queued
          (Service.start blank (started (fun _ _ _ => 0) 7 (by decide) true))) events x ∧
        (∀ e ∈ events, ¬ e.Fails server) ∧ Exchange.Done server x ∧
        x.client.printed = [ServiceClient.coloured [97]] := by
  intro blank server stream
  have hruns : runs isSpace stream = [([97, 98, 97], some 32)] := by decide
  have hfits := StdinTcp.fits_of_runs_eq hruns ⟨rfl, by decide⟩
  have hdialogue : Service.dialogue learnerServed .initial
      (((runs isSpace stream).map StdinTcp.asked).map (·.2)) = [[97]] := by
    rw [hruns]
    decide
  obtain ⟨reader, hreader, hall⟩ := typing_law (fun _ _ _ => 0) (fun _ => []) 7 (by decide) true none
    (fun _ => blank) (fun _ => 0) stream hfits
  obtain ⟨events, x, hgoing, -, hdone⟩ := Service.dialogue_done none hfits
    (served_texts (fun _ _ _ => 0) (fun _ => []) 7 (by decide) true _) hreader blank blank
  obtain ⟨h, hcalm⟩ := hgoing.reached
  have hprinted := (hall blank blank events x h).2.2 hcalm hdone
  rw [hdialogue] at hprinted
  exact ⟨reader, hreader, events, x, h, hcalm, hdone, hprinted⟩

theorem arrival_law (pastEnd : Graph → ℕ → ℕ → ℕ) (graphviz : Drawing Word → Bytes)
    (predictionId : ℕ) (hid : predictionId ≠ 20) (interface : Bool) (corpus : Option Bytes)
    (blank : ℕ → Packet) (memory : Fin (maxBodyLength + 1) → UInt8) (stream : Bytes)
    (hfits : ∀ r ∈ runs isSpace stream, StdinTcp.Fits r) :
    let server := Service.peer (served pastEnd graphviz predictionId) corpus
    let requests := (runs isSpace stream).map StdinTcp.asked
    let predictions := Service.dialogue learnerServed .initial (requests.map (·.2))
    ∃ reader, StdinTcp.readLoop blank (StdinTcp.start memory) stream = .ok reader ∧
      ∀ (p q : Packet) (events : List (Exchange.Event Service.Event)) (x : Exchange (Service _)),
        Exchange.Going server (Exchange.start p reader.queued
          (Service.start q (started pastEnd predictionId hid interface))) events x →
        events.length ≤ 4 * ((requests ++ Service.replies predictions).flatMap frame).length + 2 ∧
        ((∀ e, ¬ Exchange.Event.Goes server x e) →
          x.client.printed = predictions.map ServiceClient.coloured) := by
  intro server requests predictions
  obtain ⟨reader, hreader, hqueue⟩ := StdinTcp.readLoop_requests blank memory hfits
  refine ⟨reader, hreader, fun p q events x h => ?_⟩
  have hdelivered := Service.delivered_dialogue (Service.asked_predict _)
    (served_texts pastEnd graphviz predictionId hid interface _)
    (fun r hr => (StdinTcp.asked_sendable hfits r hr).1) hqueue h
  rwa [served_dialogue] at hdelivered

theorem arrival_law_word :
    let blank := Packet.fresh (List.replicate 517 0) (by rw [List.length_replicate]; rfl)
    let server := Service.peer (served (fun _ _ _ => 0) (fun _ => []) 7) none
    let stream : Bytes := [97, 98, 97, 32]
    ∃ reader, StdinTcp.readLoop (fun _ => blank) (StdinTcp.start fun _ => 0) stream = .ok reader ∧
      ∃ events x, Exchange.Going server (Exchange.start blank reader.queued
          (Service.start blank (started (fun _ _ _ => 0) 7 (by decide) true))) events x ∧
        (∀ e, ¬ Exchange.Event.Goes server x e) ∧ events.length ≤ 70 ∧
        x.client.printed = [ServiceClient.coloured [97]] := by
  intro blank server stream
  have hruns : runs isSpace stream = [([97, 98, 97], some 32)] := by decide
  have hfits := StdinTcp.fits_of_runs_eq hruns ⟨rfl, by decide⟩
  have hdialogue : Service.dialogue learnerServed .initial
      (((runs isSpace stream).map StdinTcp.asked).map (·.2)) = [[97]] := by
    rw [hruns]
    decide
  obtain ⟨reader, hreader, hall⟩ := arrival_law (fun _ _ _ => 0) (fun _ => []) 7 (by decide) true none
    (fun _ => blank) (fun _ => 0) stream hfits
  obtain ⟨events, x, h, hstuck, -⟩ := Service.dialogue_done none hfits
    (served_texts (fun _ _ _ => 0) (fun _ => []) 7 (by decide) true _) hreader blank blank
  obtain ⟨hlength, hprinted⟩ := hall blank blank events x h
  have hprinted := hprinted hstuck
  rw [hdialogue] at hlength hprinted
  rw [hruns] at hlength
  exact ⟨reader, hreader, events, x, h, hstuck, hlength, hprinted⟩

end WordModel.BoundedCTModel
