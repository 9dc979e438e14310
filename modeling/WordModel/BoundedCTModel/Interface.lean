import WordModel.BoundedCTModel.Minimisers
import WordModel.BoundedCTModel.Queries
import WordModel.ContextTree.Recycling

/-! The flag that the interface was predicted. It is set from the id of a prediction's
context, and the first context has another id than the token that is predicted in it. -/

namespace WordModel.BoundedCTModel

open Checked ContextTree Least

variable (p : Platform)

def Flagged (m : BoundedCTModel) : Prop :=
  m.detectedInterface = true ↔ m.words[m.prediction]? = some interfaceToken

/-- No word is committed: there is none when the interface is called. -/
def Uncommitted (m : BoundedCTModel) : Call → Prop
  | .interface true => m.currentString = []
  | _ => True

abbrev Ran (guard : BoundedCTModel → Call → Prop) (bound : UInt32) (predictionId : ℕ)
    (calls : List Call) (m : BoundedCTModel) : Prop :=
  Runs.Run (step p) guard (fresh bound predictionId) calls m

def Untouched (m : BoundedCTModel) : Prop :=
  ∃ bound predictionId word, m = { fresh bound predictionId with currentString := word }

namespace Untouched

variable {p} {m : BoundedCTModel} (h : Untouched m)

include h

lemma fitting : Fitting m ∧ Complete m := by
  obtain ⟨bound, predictionId, word, rfl⟩ := h
  have hf := fresh_fitting bound predictionId
  exact ⟨⟨hf.sound, hf.numbered, hf.maxContexts, hf.words_length, hf.wordMap, hf.prediction_lt,
    hf.positive, hf.known, hf.weights_length, hf.keys, hf.dataMap, hf.context,
    hf.context_length⟩, rfl⟩

lemma unregretted : Unregretted m := by
  obtain ⟨bound, predictionId, word, rfl⟩ := h
  have hf := fresh_unregretted bound predictionId
  exact ⟨hf.known, hf.empty, hf.interface, hf.mistaken⟩

lemma ids : m.ct.activeIds = [] ∧ m.ct.inactiveIds = 0 :: (List.range 20).tail := by
  obtain ⟨bound, predictionId, word, rfl⟩ := h
  exact ⟨rfl, rfl⟩

lemma words : m.words = [[], interfaceToken] ∧ m.prediction = 0 ∧
    m.detectedInterface = false ∧ m.rootWeights.length = 2 := by
  obtain ⟨bound, predictionId, word, rfl⟩ := h
  exact ⟨rfl, rfl, rfl, rfl⟩

lemma flagged : Flagged m := by
  obtain ⟨hwords, hprediction, hflag, -⟩ := h.words
  have hne := interfaceToken_ne_nil.symm
  rw [Flagged, hwords, hprediction, hflag]
  simpa using hne

lemma mistaken (hne : m.currentString ≠ []) : Mistaken m := by
  obtain ⟨hwords, hprediction, -⟩ := h.words
  have hempty : m.words[0]? = some [] := by
    rw [hwords]
    rfl
  have hzero : m.addWord.prediction = 0 := by
    rw [addWord_same]
    exact hprediction
  rw [mistaken_iff h.fitting.1, hzero]
  exact Ne.symm (currentToken_ne_zero h.fitting.1 hempty hne)

lemma quiet {c : Call} {m' : BoundedCTModel} (hc : Uncommitted m c) (he : step p m c = .ok m') :
    Untouched m' := by
  cases c with
  | putc c =>
    obtain rfl := Except.ok.inj he
    obtain ⟨bound, predictionId, word, rfl⟩ := h
    rw [putc_same]
    exact ⟨bound, predictionId, _, rfl⟩
  | getPrediction id =>
    obtain ⟨⟨m₁, _, _⟩, hget, hr⟩ := bind_eq_ok.mp he
    obtain ⟨word, _, hw⟩ := bind_eq_ok.mp hget
    obtain rfl := Except.ok.inj hr
    obtain ⟨rfl, _⟩ := Prod.mk.inj (Except.ok.inj hw)
    cases id with
    | none => exact h
    | some id =>
      obtain ⟨bound, predictionId, word, rfl⟩ := h
      exact ⟨bound, id, word, rfl⟩
  | predictionResult contextId outcome =>
    cases outcome with
    | true =>
      obtain rfl := Except.ok.inj he
      exact h
    | false =>
      have hf : Fed p m true contextId m.depth m' := Fed.of_ok p h.fitting.1 he
      cases hf with
      | rejected => exact h
      | settled hmem =>
        rw [h.ids.1] at hmem
        cases hmem
  | interface atInterface =>
    have hquiet : ¬ (atInterface = true ∧ 0 < m.currentString.length) := by
      rintro ⟨rfl, hpos⟩
      exact List.ne_nil_of_length_pos hpos hc
    rw [step, interface, if_neg hquiet] at he
    obtain rfl := Except.ok.inj he
    exact h

lemma commit {m' : BoundedCTModel} (hne : m.currentString ≠ [])
    (he : step p m (.interface true) = .ok m') :
    m'.prediction = interfaceId ∧ m'.predictionId = 0 ∧ m'.detectedInterface = false ∧
      m'.words[interfaceId]? = some interfaceToken := by
  obtain ⟨hf, hc⟩ := h.fitting
  have hm := h.mistaken hne
  have hpos := List.length_pos_iff.mpr hne
  have hsafe : SafeCommit p m := by
    rcases step_cases p hf hc (.interface true) with ⟨hsafe, _⟩ | ⟨_, e, he'⟩
    · exact hsafe hpos
    · rw [he] at he'
      cases he'
  have hactive : (blamed m).ct.activeIds = [] := by
    rw [blamed, addWord_same]
    exact h.ids.1
  have hcor : Corrected p m (blamed m) := .wrong hm (.rejected (by simp [hactive]))
  have hprepare : prepare p m = .ok (blamed m).pushContext := by
    rw [prepare, correct_early p hf h.ids.1 (fun hm => (hsafe hm).1), if_pos hm, ok_bind,
      pure_eq_ok]
  obtain ⟨m'', contextId, con, t, word, data, hnext, hpredict, hfor, hsum⟩ :=
    predictNext_spec p (hcor.pushContext_fitting p hf) (hcor.visited p hf hc)
  have hsame : step p m (.interface true) = .ok m'' := by
    simp [step, interface, hpos, doPredict, hprepare, hnext]
  rw [he, Except.ok.injEq] at hsame
  subst hsame
  have hinactive : (blamed m).pushContext.ct.inactiveIds = 0 :: (List.range 20).tail := by
    rw [pushContext, blamed, addWord_same]
    exact h.ids.2
  obtain rfl := predict_contextId hinactive hpredict
  obtain ⟨least, hleast, hword⟩ := hsum.least
  obtain ⟨hlt, hzero⟩ := h.unregretted.blamed.total (Nat.succ_pos _) _ hleast
  have htwo : (blamed m).rootWeights.length = 2 := by
    rw [blamed, addWord_same]
    exact h.words.2.2.2
  have hone : least = 1 := by
    have hbound : least < (blamed m).rootWeights.length := hleast.lt
    omega
  have hprediction : word = interfaceId := (hword.trans (if_pos hlt)).trans hone
  have hknown : m.addWord.words[interfaceId]? = some interfaceToken := by
    obtain ⟨added, hwords⟩ := words_prefix_addWord m
    rw [← hwords, h.words.1]
    rfl
  rw [hfor.result]
  exact ⟨hprediction, rfl, rfl, hknown⟩

lemma not_flagged {m' : BoundedCTModel} (hne : m.currentString ≠ [])
    (he : step p m (.interface true) = .ok m') : ¬ Flagged m' := by
  obtain ⟨hprediction, -, hflag, hword⟩ := h.commit hne he
  rw [Flagged, hflag, hprediction, hword]
  simp

end Untouched

variable {p} in
lemma Untouched.run_iff {m m' : BoundedCTModel} {calls : List Call} (hm : Untouched m)
    (h : Runs.Run (step p) (fun _ _ => True) m calls m') :
    (∀ k t, Runs.Run (step p) (fun _ _ => True) m (calls.take k) t → Flagged t) ↔
      Runs.Run (step p) Uncommitted m calls m' := by
  apply Runs.Run.forall_take_iff (P := Flagged) (I := Untouched) _ _ _ h hm
  · exact fun _ hs => hs.flagged
  · exact fun _ _ _ hs hc he => hs.quiet hc he
  · intro s c t hs hc he
    obtain rfl : c = .interface true := by
      cases c with
      | interface atInterface =>
        cases atInterface with
        | false => exact absurd trivial hc
        | true => rfl
      | putc c => exact absurd trivial hc
      | getPrediction id => exact absurd trivial hc
      | predictionResult id outcome => exact absurd trivial hc
    exact hs.not_flagged hc he

theorem flag_law (bound : UInt32) (predictionId : ℕ) (calls : List Call) (m : BoundedCTModel)
    (h : Ran p (fun _ _ => True) bound predictionId calls m) :
    (∀ k t, Ran p (fun _ _ => True) bound predictionId (calls.take k) t → Flagged t) ↔
      Ran p Uncommitted bound predictionId calls m :=
  Untouched.run_iff ⟨bound, predictionId, [], rfl⟩ h

theorem flag_law_typing : ∃ m, Ran ⟨fun _ _ _ => 0, .dropped⟩ (fun _ _ => True) 5 7
    [.putc 97, .interface false, .getPrediction none] m ∧
    ∀ k t, Ran ⟨fun _ _ _ => 0, .dropped⟩ (fun _ _ => True) 5 7
      ([.putc 97, .interface false, .getPrediction none].take k) t → Flagged t := by
  have h : Ran ⟨fun _ _ _ => 0, .dropped⟩ Uncommitted 5 7
      [.putc 97, .interface false, .getPrediction none] _ :=
    .cons trivial rfl (.cons trivial rfl (.cons trivial rfl .nil))
  exact ⟨_, h.unguarded, (flag_law _ 5 7 _ _ h.unguarded).mpr h⟩

theorem flag_law_fails : ∃ m, Ran ⟨fun _ _ _ => 0, .dropped⟩ (fun _ _ => True) 5 7
    [.putc 97, .interface true] m ∧ ¬ Flagged m := by
  -- after the first word the interface is predicted, and the flag does not say so
  have hrun : Ran ⟨fun _ _ _ => 0, .dropped⟩ (fun _ _ => True) 5 7
      [.putc 97, .interface true] _ := .cons trivial rfl (.cons trivial rfl .nil)
  refine ⟨_, hrun, fun h => ?_⟩
  have hflag := h.mpr rfl
  cases hflag

end WordModel.BoundedCTModel
