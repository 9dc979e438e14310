import WordModel.Packet.EchoExchange
import WordModel.Server.Peer

/-! Words that are typed at one end and predicted from at the other. -/

namespace WordModel

open Checked Decimal Packet Endpoint Stretches ModelServer

namespace Service

section

variable {W : Type} (wm : Served W)

/-- The predictions that are made when these texts come one after the other -/
def dialogue : W → List Bytes → List Bytes
  | _, [] => []
  | w, body :: bodies =>
    let r := wm.getPrediction (body.foldl wm.putc w)
    (if 0 < r.2.length then [r.2] else []) ++ dialogue r.1 bodies

lemma answers_predict (corpus : Option Bytes) (w : W) (bodies : List Bytes) :
    (answers wm corpus w (bodies.map (fun body => ((PacketType.predict.code : ℤ), body)))).2 =
      (dialogue wm w bodies).map (fun text => (.prediction, (text ++ [0]).take maxBodyLength)) := by
  induction bodies generalizing w with
  | nil => rfl
  | cons body bodies ih =>
    rw [List.map_cons, answers, ih, dialogue, List.map_append, answer, if_pos rfl]
    dsimp only
    split
    · rfl
    · rfl

end

lemma shown_prediction {text : Bytes} (hlen : text.length ≤ 511) (hplain : 0 ∉ text) :
    ServiceClient.shown (.prediction, (text ++ [0]).take maxBodyLength) =
      ServiceClient.coloured text := by
  have hmax : maxBodyLength = 512 := rfl
  have hfits : (text ++ [0]).take maxBodyLength = text ++ [0] := by
    rw [List.take_of_length_le]
    rw [List.length_append, List.length_singleton]
    omega
  have hall : ∀ c ∈ text, decide (c ≠ 0) = true := by
    intro c hc
    rw [decide_eq_true_iff]
    rintro rfl
    exact hplain hc
  rw [ServiceClient.shown, hfits, List.takeWhile_append_of_pos hall]
  simp

def replies (predictions : List Bytes) : List (PacketType × Bytes) :=
  predictions.map (fun text => (.prediction, text ++ [0]))

section

variable {W : Type} {wm : Served W} {corpus : Option Bytes} {w : W}
  {requests : List (PacketType × Bytes)} (hpredict : ∀ r ∈ requests, r.1 = .predict)

include hpredict

lemma answers_requests : (answers wm corpus w (processed requests)).2 =
    (dialogue wm w (requests.map (·.2))).map
      (fun text => (.prediction, (text ++ [0]).take maxBodyLength)) := by
  have hprocessed : processed requests =
      (requests.map (·.2)).map (fun body => ((PacketType.predict.code : ℤ), body)) := by
    rw [processed, List.map_map]
    refine List.map_congr_left fun r hr => ?_
    rw [hpredict r hr]
    rfl
  rw [hprocessed, answers_predict]

variable (htexts : ∀ text ∈ dialogue wm w (requests.map (·.2)), text.length ≤ 511 ∧ 0 ∉ text)

include htexts

lemma shown_answers : (answers wm corpus w (processed requests)).2.map ServiceClient.shown =
    (dialogue wm w (requests.map (·.2))).map ServiceClient.coloured := by
  rw [answers_requests hpredict, List.map_map]
  refine List.map_congr_left fun text htext => ?_
  obtain ⟨hlen, hplain⟩ := htexts text htext
  exact shown_prediction hlen hplain

lemma answers_sendable : ∀ q ∈ (answers wm corpus w (processed requests)).2,
    q.2.length ≤ maxBodyLength ∧ 0 ∈ q.2 := by
  rw [answers_requests hpredict]
  intro r hr
  obtain ⟨text, htext, rfl⟩ := List.mem_map.mp hr
  obtain ⟨hlen, -⟩ := htexts text htext
  refine ⟨List.length_take_le _ _, ?_⟩
  dsimp only
  rw [List.take_of_length_le]
  · simp
  · rw [List.length_append, List.length_singleton]
    exact Nat.succ_le_succ hlen

lemma printed_dialogue (hsend : ∀ r ∈ requests, r.2.length ≤ maxBodyLength) {queued : List Packet}
    (hqueue : queued.flatMap wire = requests.flatMap Endpoint.frame)
    {p q : Packet} {events : List (Exchange.Event Event)} {x : Exchange (Service W)}
    (h : Exchange.Reached (peer wm corpus) (Exchange.start p queued (start q w)) events x) :
    x.client.printed <+: (dialogue wm w (requests.map (·.2))).map ServiceClient.coloured ∧
    (∀ e, e.CanOccur (peer wm corpus) x → ∃ y, Exchange.step (peer wm corpus) x e = .ok y) ∧
    ((∀ e ∈ events, ¬ e.Fails (peer wm corpus)) → Exchange.Done (peer wm corpus) x →
      x.client.printed =
        (dialogue wm w (requests.map (·.2))).map ServiceClient.coloured) := by
  rw [← shown_answers hpredict htexts]
  exact h.printed (peer_serves wm corpus q w hsend) (answers_sendable hpredict htexts) hqueue
    (fun calm => ⟨⟨[], [], start_serving wm corpus calm q w⟩, List.nil_prefix⟩) rfl

lemma delivered_dialogue (hsend : ∀ r ∈ requests, r.2.length ≤ maxBodyLength) {queued : List Packet}
    (hqueue : queued.flatMap wire = requests.flatMap Endpoint.frame)
    {p q : Packet} {events : List (Exchange.Event Event)} {x : Exchange (Service W)}
    (h : Exchange.Going (peer wm corpus) (Exchange.start p queued (start q w)) events x) :
    events.length ≤ 4 * ((requests ++
      replies (dialogue wm w (requests.map (·.2)))).flatMap Endpoint.frame).length + 2 ∧
    ((∀ e, ¬ Exchange.Event.Goes (peer wm corpus) x e) →
      x.client.printed =
        (dialogue wm w (requests.map (·.2))).map ServiceClient.coloured) := by
  have hwhole : (answers wm corpus w (processed requests)).2 =
      replies (dialogue wm w (requests.map (·.2))) := by
    rw [answers_requests hpredict, replies]
    refine List.map_congr_left fun text htext => ?_
    rw [List.take_of_length_le]
    rw [List.length_append, List.length_singleton]
    exact Nat.succ_le_succ (htexts text htext).1
  obtain ⟨hlength, hdone⟩ := h.delivered (peer_serves wm corpus q w hsend True)
    (live wm corpus q w hsend) (answers_sendable hpredict htexts) hqueue
    ⟨⟨[], [], start_serving wm corpus True q w⟩, List.nil_prefix⟩ rfl
  rw [shown_answers hpredict htexts] at hdone
  refine ⟨hlength.trans (Nat.le_of_eq ?_), hdone⟩
  rw [hwhole, List.flatMap_append, List.length_append]
  ring

end

lemma asked_predict (rs : List (Bytes × Option UInt8)) :
    ∀ r ∈ rs.map StdinTcp.asked, r.1 = .predict := by
  intro r hr
  obtain ⟨q, -, rfl⟩ := List.mem_map.mp hr
  rfl

lemma dialogue_done {W : Type} {wm : Served W} (corpus : Option Bytes) {w : W} {blank : ℕ → Packet}
    {memory : Fin (maxBodyLength + 1) → UInt8} {stream : Bytes}
    (hfits : ∀ r ∈ runs isSpace stream, StdinTcp.Fits r)
    (htexts : ∀ text ∈ dialogue wm w (((runs isSpace stream).map StdinTcp.asked).map (·.2)),
      text.length ≤ 511 ∧ 0 ∉ text) {reader : StdinTcp.Reader}
    (hreader : StdinTcp.readLoop blank (StdinTcp.start memory) stream = .ok reader) (p q : Packet) :
    ∃ events x, Exchange.Going (peer wm corpus)
        (Exchange.start p reader.queued (start q w)) events x ∧
      (∀ e, ¬ Exchange.Event.Goes (peer wm corpus) x e) ∧ Exchange.Done (peer wm corpus) x := by
  obtain ⟨reader', hreader', hqueue⟩ := StdinTcp.readLoop_requests blank memory hfits
  obtain rfl := Except.ok.inj (hreader.symm.trans hreader')
  exact Exchange.Going.exists_done
    (peer_serves wm corpus q w (fun r hr => (StdinTcp.asked_sendable hfits r hr).1) True)
    (live wm corpus q w fun r hr => (StdinTcp.asked_sendable hfits r hr).1)
    (answers_sendable (asked_predict _) htexts) hqueue
    ⟨⟨[], [], start_serving wm corpus True q w⟩, List.nil_prefix⟩ rfl p

theorem conversation_law {W : Type} (wm : Served W) (corpus : Option Bytes) (w : W)
    (blank : ℕ → Packet) (memory : Fin (maxBodyLength + 1) → UInt8) (stream : Bytes)
    (hfits : ∀ r ∈ runs isSpace stream, StdinTcp.Fits r)
    (htexts : ∀ text ∈ dialogue wm w (((runs isSpace stream).map StdinTcp.asked).map (·.2)),
      text.length ≤ 511 ∧ 0 ∉ text) :
    ∃ reader, StdinTcp.readLoop blank (StdinTcp.start memory) stream = .ok reader ∧
      ∀ (p q : Packet) (events : List (Exchange.Event Event)) (x : Exchange (Service W)),
        Exchange.Reached (peer wm corpus) (Exchange.start p reader.queued (start q w)) events x →
        x.client.printed <+: (dialogue wm w
          (((runs isSpace stream).map StdinTcp.asked).map (·.2))).map ServiceClient.coloured ∧
        (∀ e, e.CanOccur (peer wm corpus) x → ∃ y, Exchange.step (peer wm corpus) x e = .ok y) ∧
        ((∀ e ∈ events, ¬ e.Fails (peer wm corpus)) → Exchange.Done (peer wm corpus) x →
          x.client.printed = (dialogue wm w
            (((runs isSpace stream).map StdinTcp.asked).map (·.2))).map ServiceClient.coloured) := by
  obtain ⟨reader, hreader, hqueue⟩ := StdinTcp.readLoop_requests blank memory hfits
  refine ⟨reader, hreader, fun p q events x h => ?_⟩
  exact printed_dialogue (asked_predict _) htexts
    (fun r hr => (StdinTcp.asked_sendable hfits r hr).1) hqueue h

theorem conversation_law_hi :
    let blank := fresh (List.replicate 517 0) (by rw [List.length_replicate]; rfl)
    let wm : Served Unit := ⟨fun _ _ => (), fun _ => ((), [97]), fun _ => ((), []), fun _ => 4⟩
    ∃ reader, StdinTcp.readLoop (fun _ => blank) (StdinTcp.start fun _ => 0) [104, 105, 32] =
        .ok reader ∧
      ∃ events x, Exchange.Reached (peer wm none)
          (Exchange.start blank reader.queued (start blank ())) events x ∧
        (∀ e ∈ events, ¬ e.Fails (peer wm none)) ∧ Exchange.Done (peer wm none) x ∧
        x.client.printed = [ServiceClient.coloured [97]] := by
  intro blank wm
  have hruns : runs isSpace [104, 105, 32] = [([104, 105], some 32)] := by decide
  have hfits := StdinTcp.fits_of_runs_eq hruns ⟨rfl, by decide⟩
  have hdialogue : dialogue wm ()
      (((runs isSpace [104, 105, 32]).map StdinTcp.asked).map (·.2)) = [[97]] := by
    rw [hruns]
    rfl
  have htexts : ∀ text ∈ dialogue wm () (((runs isSpace [104, 105, 32]).map StdinTcp.asked).map (·.2)),
      text.length ≤ 511 ∧ 0 ∉ text := by
    rw [hdialogue]
    decide
  obtain ⟨reader, hreader, hall⟩ :=
    conversation_law wm none () (fun _ => blank) (fun _ => 0) _ hfits htexts
  obtain ⟨events, x, hgoing, -, hdone⟩ := dialogue_done none hfits htexts hreader blank blank
  obtain ⟨h, hcalm⟩ := hgoing.reached
  have hprinted := (hall blank blank events x h).2.2 hcalm hdone
  rw [hdialogue] at hprinted
  exact ⟨reader, hreader, events, x, h, hcalm, hdone, hprinted⟩

end Service

end WordModel
