import WordModel.BoundedCTModel.Orbits
import WordModel.ModelMultiplexer.Levels
import WordModel.Server.Refinement

/-! The server that is built: its one level of bounded models commits every character as a word,
and its replies are those of a learner of characters. -/

namespace WordModel.BoundedCTModel

open Checked ContextTree Decimal ModelMultiplexer ModelServer Packet Stretches

def strokes (cs : Bytes) : List Call := cs.flatMap (fun c => [.putc c, .interface true])

lemma strokes_concat (cs : Bytes) (c : UInt8) :
    strokes (cs ++ [c]) = strokes cs ++ [.putc c] ++ [.interface true] := by
  rw [strokes, List.flatMap_append, List.append_assoc]
  rfl

lemma heard_strokes (cs : Bytes) : heard (strokes cs) = characters cs := by
  suffices hlisten : (strokes cs).foldl listen ([], []) = (characters cs, []) from
    congrArg Prod.fst hlisten
  induction cs using List.reverseRecOn with
  | nil => rfl
  | append_singleton cs c ih =>
    rw [strokes_concat, List.foldl_append, List.foldl_append, ih, characters_concat]
    by_cases hzero : c = 0
    · simp [listen, edit, hzero]
    · by_cases height : c = 8
      · simp [listen, edit, height]
      · simp [listen, edit, hzero, height]

def learner (cs : Bytes) : Learner := learnt 5 (characters cs)

def learnerServed : Served Learner where
  putc l c := if c = 0 ∨ c = 8 then l else l.hear 5 4 [c]
  getPrediction l := (l, l.words.getD l.prediction [])
  writeSummary l := (l, [])
  trainingMistakes l := l.mistakes

lemma learner_concat (cs : Bytes) (c : UInt8) :
    learner (cs ++ [c]) = learnerServed.putc (learner cs) c := by
  have hreach : reach 5 = 4 := by decide
  rw [learner, characters_concat, learnerServed]
  dsimp only
  by_cases hskip : c = 0 ∨ c = 8
  · rw [if_pos hskip, if_pos hskip, List.append_nil]
    rfl
  · rw [if_neg hskip, if_neg hskip, learnt, Learner.learn_concat, learner, learnt, hreach]
    rfl

section

variable (pastEnd : Graph → ℕ → ℕ → ℕ) (graphviz : Drawing Word → Bytes) (predictionId : ℕ)

/-- The multiplexer after the characters, of which pictures may have been taken meanwhile -/
def After (cs : Bytes) (s : ModelMultiplexer BoundedCTModel) : Prop :=
  ∃ m m₀ log, s.models = [m] ∧ m.pruned = m₀.pruned ∧ m₀.predictionId ≠ 20 ∧
    Reached ⟨pastEnd, .dropped⟩ (fun _ c => c.hears = true) 5 predictionId (strokes cs) (m₀, log)

lemma construct_after (hid : predictionId ≠ 20) (interface : Bool) :
    After pastEnd predictionId [] (construct [predictionId] interface) :=
  ⟨fresh 5 predictionId, _, [], rfl, rfl, hid, .nil⟩

variable {pastEnd predictionId} {cs : Bytes} {s : ModelMultiplexer BoundedCTModel}
  (h : After pastEnd predictionId cs s)

include h

lemma After.putc (c : UInt8) : ∃ r, ModelMultiplexer.putc
      (modelType ⟨pastEnd, .dropped⟩ graphviz).toModelType s c = .ok r ∧
    After pastEnd predictionId (cs ++ [c]) r.1 := by
  obtain ⟨m, m₀, log, hmodels, hpruned, hid, hrun⟩ := h
  have hstroke : Reached ⟨pastEnd, .dropped⟩ (fun _ c => c.hears = true) 5 predictionId
      (strokes cs ++ [.putc c]) ((m₀.putc c).1, log ++ []) :=
    hrun.concat rfl (Runs.traced_eq_ok.mpr ⟨rfl, rfl⟩)
  have htyped := (putc_pruned hpruned c).1
  have hid' : (m₀.putc c).1.predictionId ≠ 20 := by
    obtain ⟨m', he, -, hne⟩ := step_dropped pastEnd hrun.fitting.1 hrun.fitting.2 hid
      (c := .putc c) (by simp [Call.passes])
    rwa [Except.ok.inj he]
  obtain ⟨m₁, he, -, hne⟩ := step_dropped pastEnd hstroke.fitting.1 hstroke.fitting.2 hid'
    (c := .interface true) (by simp [Call.passes])
  have hcommit := Runs.Run.concat hstroke (i := .interface true)
    (t := (m₁, log ++ [] ++ commits ⟨pastEnd, .dropped⟩ (m₀.putc c).1 (.interface true) m₁)) rfl
    (Runs.traced_eq_ok.mpr ⟨he, rfl⟩)
  obtain ⟨m', hm', hsame⟩ := (interface_pruned _ htyped.symm true).of_ok he
  rw [← strokes_concat] at hcommit
  refine ⟨(⟨[m'], (m.putc c).2⟩, (m.putc c).2), ?_, m', m₁, _, rfl, hsame.symm, hne, hcommit⟩
  rw [ModelMultiplexer.putc, hmodels]
  change (Except.mapError _ (interface ⟨pastEnd, .dropped⟩ (m.putc c).1 true) >>= _) = _
  rw [hm']
  rfl

lemma After.learns : ∃ m m₀ : BoundedCTModel, s.models = [m] ∧ m.pruned = m₀.pruned ∧
    m₀.words = (learner cs).words ∧ m₀.prediction = (learner cs).prediction ∧
    m₀.mistakes = (learner cs).mistakes ∧ m₀.words = entries (characters cs) ∧
    m₀.prediction < m₀.words.length := by
  obtain ⟨m, m₀, log, hmodels, hpruned, hid, hrun⟩ := h
  have hfive : (5 : UInt32).toNat + 1 < 2 ^ 31 := by decide
  obtain ⟨hlearns, -⟩ := hrun.learns (by decide) (brief_of_lt hfive _)
  have hwords := hrun.labelling.words
  have hlt := hrun.fitting.1.prediction_lt
  rw [← hrun.fitting.1.words_length] at hlt
  rw [heard_strokes] at hlearns
  rw [hrun.heard, heard_strokes] at hwords
  exact ⟨m, m₀, hmodels, hpruned, hlearns.words, hlearns.prediction, hlearns.mistakes, hwords, hlt⟩

lemma After.getPrediction : ∃ s', ModelMultiplexer.getPrediction
      (modelType ⟨pastEnd, .dropped⟩ graphviz) s none =
        .ok (s', (learner cs).words.getD (learner cs).prediction []) ∧
    After pastEnd predictionId cs s' := by
  obtain ⟨m, m₀, hmodels, hpruned, hwords, hprediction, -, -, hlt⟩ := h.learns
  obtain ⟨t, rfl, ht⟩ := pruned_cases hpruned
  have hget : m.words[m.prediction]? = some ((learner cs).words.getD (learner cs).prediction []) := by
    change m.words = _ at hwords
    change m.prediction = _ at hprediction
    change m.prediction < m.words.length at hlt
    rw [← hwords, ← hprediction, List.getD_eq_getElem?_getD, List.getElem?_eq_getElem hlt,
      Option.getD_some]
  refine ⟨s, ?_, h⟩
  obtain ⟨models, interface⟩ := s
  obtain rfl : models = [m] := hmodels
  change (Except.mapError _ (m.getPrediction none >>= _) >>= _) = _
  rw [BoundedCTModel.getPrediction, fetch_of_getElem? hget]
  rfl

lemma After.writeSummary : ∃ r, ModelMultiplexer.writeSummary
      (modelType ⟨pastEnd, .dropped⟩ graphviz) s = .ok r ∧ After pastEnd predictionId cs r.1 := by
  obtain ⟨m, m₀, log, hmodels, hpruned, hid, hrun⟩ := h
  -- a character is not the interface token, so that every vertex has its name
  have hone : ∀ w ∈ log.map (·.word), w.length = 1 ∧ 0 ∉ w := by
    have hheard : log.map (·.word) = characters cs := hrun.heard.trans (heard_strokes cs)
    rw [hheard]
    intro w hw
    obtain ⟨c, hc, rfl⟩ := List.mem_map.mp hw
    have hzero := (of_decide_eq_true (List.mem_filter.mp hc).2).1
    exact ⟨rfl, fun hmem => hzero (List.mem_singleton.mp hmem).symm⟩
  have hlabelled := (hrun.labelling.labelled_iff fun w hw => (hone w hw).2).mpr fun v w hs => by
    have hall : (log.map (·.word)).takeWhile (· ≠ interfaceToken) = log.map (·.word) := by
      rw [List.takeWhile_eq_self_iff]
      intro u hu
      rw [decide_eq_true_iff]
      rintro rfl
      exact absurd (hone _ hu).1 (by decide)
    rw [hall]
    exact hs.mem
  obtain ⟨m₁, drawing, hwrite, -⟩ := hlabelled
  obtain ⟨⟨m', drawing'⟩, hm', -⟩ := (writeSummary_pruned hpruned.symm).of_ok hwrite
  refine ⟨(⟨[m'], s.interface⟩, title ++ graphviz drawing'), ?_, m', m₀, log, rfl,
    (writeSummary_keeps hm').trans hpruned, hid, hrun⟩
  rw [ModelMultiplexer.writeSummary, hmodels, writeSummaries]
  change (Except.mapError _ ((m.writeSummary >>= _) >>= _) >>= _) = _
  rw [hm']
  rfl

lemma After.trainingMistakes : ModelMultiplexer.trainingMistakes
    (modelType ⟨pastEnd, .dropped⟩ graphviz) s = (learner cs).mistakes := by
  obtain ⟨m, m₀, hmodels, hpruned, -, -, hmistakes, -, -⟩ := h.learns
  obtain ⟨t, rfl, ht⟩ := pruned_cases hpruned
  rw [ModelMultiplexer.trainingMistakes, hmodels, List.foldl_cons, List.foldl_nil, Int.zero_add]
  exact congrArg Nat.cast hmistakes

end

section

variable (pastEnd : Graph → ℕ → ℕ → ℕ) (graphviz : Drawing Word → Bytes) (predictionId : ℕ)

def multiplexer : Fallible (ModelMultiplexer.Fault (Checked.Fault Container))
    (ModelMultiplexer BoundedCTModel) where
  putc s c := do
    let (s, _) ← ModelMultiplexer.putc (modelType ⟨pastEnd, .dropped⟩ graphviz).toModelType s c
    return s
  getPrediction s := ModelMultiplexer.getPrediction (modelType ⟨pastEnd, .dropped⟩ graphviz) s none
  writeSummary := ModelMultiplexer.writeSummary (modelType ⟨pastEnd, .dropped⟩ graphviz)
  trainingMistakes :=
    ModelMultiplexer.trainingMistakes (modelType ⟨pastEnd, .dropped⟩ graphviz)

def Learned (s : ModelMultiplexer BoundedCTModel) (l : Learner) : Prop :=
  ∃ cs, After pastEnd predictionId cs s ∧ l = learner cs

lemma multiplexer_tracked :
    (multiplexer pastEnd graphviz).Tracked learnerServed (Learned pastEnd predictionId) where
  putc := by
    rintro s _ c ⟨cs, h, rfl⟩
    obtain ⟨r, hr, hafter⟩ := h.putc graphviz c
    refine ⟨r.1, ?_, cs ++ [c], hafter, (learner_concat cs c).symm⟩
    change (ModelMultiplexer.putc _ s c >>= _) = _
    rw [hr]
    rfl
  getPrediction := by
    rintro s _ ⟨cs, h, rfl⟩
    obtain ⟨s', hs', hafter⟩ := h.getPrediction graphviz
    exact ⟨s', hs', cs, hafter, rfl⟩
  writeSummary := by
    rintro s _ ⟨cs, h, rfl⟩
    obtain ⟨r, hr, hafter⟩ := h.writeSummary graphviz
    exact ⟨r, hr, cs, hafter, rfl⟩
  trainingMistakes := by
    rintro s _ ⟨cs, h, rfl⟩
    exact h.trainingMistakes graphviz

/-- The model as the server holds it: none of its operations fails, whatever it is sent. -/
def served : Served { s // ∃ l, Learned pastEnd predictionId s l } :=
  (multiplexer_tracked pastEnd graphviz predictionId).served

-- The constructor leaves `interface_`, and that of its model `prediction_id_`, as it finds them.
def started (hid : predictionId ≠ 20) (interface : Bool) :
    { s // ∃ l, Learned pastEnd predictionId s l } :=
  ⟨construct [predictionId] interface, learner [], [],
    construct_after pastEnd predictionId hid interface, rfl⟩

lemma started_learned (hid : predictionId ≠ 20) (interface : Bool) :
    Learned pastEnd predictionId (started pastEnd predictionId hid interface).1 .initial :=
  ⟨[], construct_after pastEnd predictionId hid interface, rfl⟩

theorem bounded_law (hid : predictionId ≠ 20) (interface : Bool) (corpus : Option Bytes)
    (requests : List Processed) :
    spoken (answers (served pastEnd graphviz predictionId) corpus
      (started pastEnd predictionId hid interface) requests).2 =
        (answers learnerServed corpus .initial (unsummarised requests)).2 :=
  ((multiplexer_tracked pastEnd graphviz predictionId).refines.answers
    (started_learned pastEnd predictionId hid interface) corpus requests).2

theorem bounded_law_three :
    spoken (answers (served (fun _ _ _ => 0) (fun _ => [100]) 7) none
      (started (fun _ _ _ => 0) 7 (by decide) true)
      [(1, [97, 98, 97, 98, 97]), (3, []), (0, [])]).2 =
        [(.prediction, [98, 0]), (.train, [52])] := by
  have h := bounded_law (fun _ _ _ => 0) (fun _ => [100]) 7 (by decide) true none
    [(1, [97, 98, 97, 98, 97]), (3, []), (0, [])]
  rw [h]
  decide +kernel

end

end WordModel.BoundedCTModel
