import WordModel.BoundedCTModel.Minimisers

/-! The words and their numbers, and the count of the words that were not what the prediction
before had been. -/

namespace WordModel.BoundedCTModel

open Checked ContextTree

/-- `word_map_` and `words_` undo each other, the one from the words that are known to the
numbers below `token_number_`, the other back. -/
structure Bijective (m : BoundedCTModel) : Prop where
  length : m.words.length = m.tokenNumber
  wordMap : ∀ n w, m.words[n]? = some w → m.wordMap.lookup w = some n
  words : ∀ w n, m.wordMap.lookup w = some n → m.words[n]? = some w

lemma Fitting.bijective {m : BoundedCTModel} (h : Fitting m) : Bijective m :=
  ⟨h.words_length, fun n w => (h.wordMap w n).mpr, fun w n => (h.wordMap w n).mp⟩

structure Guess where
  answer : Exec Container Word
  word : Word

def Guess.Wrong (g : Guess) : Prop := g.answer ≠ .ok g.word

instance (g : Guess) : Decidable g.Wrong := inferInstanceAs (Decidable (_ ≠ _))

def guesses (m : BoundedCTModel) : Call → BoundedCTModel → List Guess
  | .interface true, _ =>
    if 0 < m.currentString.length then
      [{ answer := (m.getPrediction none).map (fun r => r.2.2), word := m.currentString }]
    else []
  | _, _ => []

lemma guesses_committed {m : BoundedCTModel} (h : 0 < m.currentString.length)
    (m' : BoundedCTModel) : guesses m (.interface true) m' =
      [{ answer := (m.getPrediction none).map (fun r => r.2.2), word := m.currentString }] := by
  rw [guesses, if_pos h]

lemma guesses_eq_nil {m : BoundedCTModel} {c : Call}
    (h : ¬ (c = .interface true ∧ 0 < m.currentString.length)) (m' : BoundedCTModel) :
    guesses m c m' = [] := by
  unfold guesses
  split
  · exact if_neg (fun hpos => h ⟨rfl, hpos⟩)
  · rfl

lemma getPrediction_answer {m : BoundedCTModel} (h : Fitting m) :
    ∃ word, (m.getPrediction none).map (fun r => r.2.2) = .ok word ∧
      m.words[m.prediction]? = some word := by
  obtain ⟨word, hword⟩ : ∃ word, m.words[m.prediction]? = some word :=
    ⟨_, List.getElem?_eq_getElem (by rw [h.words_length]; exact h.prediction_lt)⟩
  refine ⟨word, ?_, hword⟩
  rw [getPrediction, fetch_of_getElem? hword]
  rfl

lemma wrong_iff {m : BoundedCTModel} (h : Fitting m) :
    Guess.Wrong ⟨(m.getPrediction none).map (fun r => r.2.2), m.currentString⟩ ↔ Mistaken m := by
  obtain ⟨word, hanswer, hword⟩ := getPrediction_answer h
  rw [Guess.Wrong, hanswer, Mistaken, ne_eq, ne_eq, h.wordMap, hword, Except.ok.injEq,
    Option.some.injEq]

structure Counted (s : BoundedCTModel × List Guess) : Prop where
  fitting : Fitting s.1
  complete : Complete s.1
  predictionId_ne : s.1.predictionId ≠ 20
  answered : ∀ g ∈ s.2, ∃ word, g.answer = .ok word
  mistakes : s.1.mistakes = s.2.countP (fun g => decide g.Wrong)

lemma fresh_counted (bound : UInt32) {predictionId : ℕ} (h : predictionId ≠ 20) :
    Counted (fresh bound predictionId, []) :=
  ⟨fresh_fitting bound predictionId, rfl, h, by simp, rfl⟩

variable (p : Platform)

lemma Stepped.mistakes {m m' : BoundedCTModel} {c : Call} (hs : Stepped p m c m')
    (h : ¬ (c = .interface true ∧ 0 < m.currentString.length)) : m'.mistakes = m.mistakes := by
  cases hs with
  | quiet he => rw [he]
  | regretted hf => rw [hf.same.1]
  | committed hpos => exact (h ⟨rfl, hpos⟩).elim

lemma commit_mistakes {m m' : BoundedCTModel} (h : Fitting m) (hc : Complete m)
    (hpos : 0 < m.currentString.length) (he : step p m (.interface true) = .ok m') :
    m'.mistakes = m.mistakes + if Mistaken m then 1 else 0 := by
  obtain ⟨m₁, contextId, con, t, word, data, hcor, -, hfor, -⟩ := commit_of_ok p h hc hpos he
  rw [← hcor.mistakes, hfor.result]
  rfl

lemma Counted.step (pastEnd : Graph → ℕ → ℕ → ℕ) {s : BoundedCTModel × List Guess}
    (h : Counted s) {c : Call} (hpass : ∀ id ∈ c.passes, id ≠ 20) :
    ∃ s', Runs.traced (BoundedCTModel.step ⟨pastEnd, .dropped⟩) guesses s c = .ok s' ∧
      Counted s' := by
  obtain ⟨m, log⟩ := s
  obtain ⟨hf, hc, hid, hanswered, hmistakes⟩ := h
  dsimp only at hf hc hid hanswered hmistakes
  obtain ⟨m', he, hs, hid'⟩ := step_dropped pastEnd hf hc hid hpass
  obtain ⟨hf', hc'⟩ := hs.fitting _ hf hc
  refine ⟨(m', log ++ guesses m c m'), Runs.traced_eq_ok.mpr ⟨he, rfl⟩, hf', hc', hid', ?_, ?_⟩
  · intro g hg
    rcases List.mem_append.mp hg with hg | hg
    · exact hanswered g hg
    · by_cases hcommit : c = .interface true ∧ 0 < m.currentString.length
      · obtain ⟨rfl, hpos⟩ := hcommit
        rw [guesses_committed hpos, List.mem_singleton] at hg
        obtain ⟨word, hanswer, _⟩ := getPrediction_answer hf
        exact ⟨word, hg ▸ hanswer⟩
      · rw [guesses_eq_nil hcommit] at hg
        cases hg
  · dsimp only
    rw [List.countP_append, ← hmistakes]
    by_cases hcommit : c = .interface true ∧ 0 < m.currentString.length
    · obtain ⟨rfl, hpos⟩ := hcommit
      rw [guesses_committed hpos, commit_mistakes _ hf hc hpos he, List.countP_singleton]
      simp only [decide_eq_true_eq, wrong_iff hf]
    · rw [guesses_eq_nil hcommit, hs.mistakes _ hcommit]
      rfl

theorem mistakes_law (pastEnd : Graph → ℕ → ℕ → ℕ) (bound : UInt32) (predictionId : ℕ)
    (hid : predictionId ≠ 20) (calls : List Call)
    (hcalls : ∀ c ∈ calls, ∀ id ∈ c.passes, id ≠ 20) :
    ∃ s, Runs.Run (Runs.traced (step ⟨pastEnd, .dropped⟩) guesses) (fun _ _ => True)
        (fresh bound predictionId, []) calls s ∧
      Bijective s.1 ∧ (∀ g ∈ s.2, ∃ word, g.answer = .ok word) ∧
      s.1.trainingMistakes = s.2.countP (fun g => decide g.Wrong) := by
  obtain ⟨s, hrun, h⟩ : ∃ s, Runs.Run (Runs.traced (step ⟨pastEnd, .dropped⟩) guesses)
      (fun _ _ => True) (fresh bound predictionId, []) calls s ∧ Counted s :=
    Runs.Run.exists_of_progress (fun s hs c hc => ⟨trivial, hs.step pastEnd (hcalls c hc)⟩)
      (fresh_counted bound hid)
  exact ⟨s, hrun, h.fitting.bijective, h.answered, h.mistakes⟩

theorem mistakes_law_backspace : ∃ s,
    Runs.Run (Runs.traced (step ⟨fun _ _ _ => 0, .dropped⟩) guesses) (fun _ _ => True)
      (fresh 5 7, []) [.putc 97, .putc 98, .putc 8, .interface true, .predictionResult 0 false] s ∧
    Bijective s.1 := by
  obtain ⟨s, hrun, hbijective, _⟩ := mistakes_law (fun _ _ _ => 0) 5 7 (by decide)
    [.putc 97, .putc 98, .putc 8, .interface true, .predictionResult 0 false]
    (by simp [Call.passes])
  exact ⟨s, hrun, hbijective⟩

end WordModel.BoundedCTModel
