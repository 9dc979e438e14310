import Mathlib.Algebra.Order.BigOperators.Group.List
import WordModel.BoundedCTModel.Regrets

/-! What a prediction adds up for each word, and which word it settles on. -/

namespace WordModel.BoundedCTModel

open Checked ContextTree Least

variable (p : Platform)

def Pooled : BoundedCTModel × List Commit → Call → Prop
  | _, .getPrediction (some id) => id ≠ 20
  | _, .predictionResult id _ => id ≠ 20
  | _, _ => True

def walked (m : BoundedCTModel) : List ℕ := m.ct.visited m.predictionContext

lemma commit_of_ok {m m' : BoundedCTModel} (h : Fitting m) (hc : Complete m)
    (hpos : 0 < m.currentString.length) (he : step p m (.interface true) = .ok m') :
    ∃ m₁ contextId con t word data, Corrected p m m₁ ∧ prepare p m = .ok m₁.pushContext ∧
      Foretold m₁.pushContext m' contextId con t word data ∧
      Summed m₁.toMembers m₁.pushContext.walked word data := by
  have hsafe : SafeCommit p m := by
    rcases step_cases p h hc (.interface true) with ⟨hsafe, _⟩ | ⟨_, e, he'⟩
    · exact hsafe hpos
    · rw [he] at he'
      cases he'
  obtain ⟨m₁, m'', contextId, con, t, word, data, hcor, hprepare, he', hfor, hsum⟩ :=
    commit_ok p h hc hpos hsafe
  rw [he, Except.ok.injEq] at he'
  subst he'
  exact ⟨m₁, contextId, con, t, word, data, hcor, hprepare, hfor, hsum⟩

variable {p} in
lemma Reached.predictionId_ne {bound : UInt32} {predictionId : ℕ} {calls : List Call}
    {s : BoundedCTModel × List Commit} (hid : predictionId ≠ 20)
    (h : Reached p Pooled bound predictionId calls s) : s.1.predictionId ≠ 20 := by
  refine h.invariant (P := fun s => s.1.predictionId ≠ 20) ?_ hid
  intro m log c m' hf _ hid hg he hs
  refine hs.predictionId_ne p hf ?_ he hid
  rintro id rfl
  exact hg

lemma Corrected.words {m m' : BoundedCTModel} (h : Corrected p m m') :
    m'.words = m.addWord.words := by
  rw [h.same.1]

lemma words_prefix_addWord (m : BoundedCTModel) : m.words <+: m.addWord.words := by
  cases hw : m.wordMap.lookup m.currentString with
  | some n => exact ⟨[], by rw [(addWord_of_some hw).1, List.append_nil]⟩
  | none =>
    rw [addWord_eq_of_none hw]
    exact List.prefix_append _ _

lemma words_addWord {m : BoundedCTModel} (h : m.words[0]? = some []) :
    m.addWord.words[0]? = some [] := by
  obtain ⟨added, hwords⟩ := words_prefix_addWord m
  rw [← hwords, List.getElem?_append_left (List.getElem?_eq_some_iff.mp h).1, h]

lemma Stepped.words {m m' : BoundedCTModel} {c : Call} (hs : Stepped p m c m')
    (h : m.words[0]? = some []) : m'.words[0]? = some [] := by
  cases hs with
  | quiet he => rwa [he]
  | regretted hf => rwa [hf.same.1]
  | @committed m₁ _ _ _ _ _ _ _ hcor _ hfor =>
    have hwords : m'.words = m.addWord.words := by
      rw [hfor.result, ← hcor.words]
      rfl
    rw [hwords]
    exact words_addWord h

variable {p} in
lemma Reached.words {guard : BoundedCTModel × List Commit → Call → Prop} {bound : UInt32}
    {predictionId : ℕ} {calls : List Call} {s : BoundedCTModel × List Commit}
    (h : Reached p guard bound predictionId calls s) : s.1.words[0]? = some [] := by
  refine h.invariant (P := fun s => s.1.words[0]? = some []) ?_ rfl
  exact fun m log c m' _ _ hw _ _ hs => hs.words p hw

lemma currentToken_ne_zero {m : BoundedCTModel} (h : Fitting m) (hw : m.words[0]? = some [])
    (hne : m.currentString ≠ []) : m.addWord.currentToken ≠ 0 := by
  intro hz
  have hlookup := addWord_lookup m
  rw [hz, (addWord_fitting h).wordMap, words_addWord hw, Option.some.injEq] at hlookup
  exact hne hlookup.symm

structure Unregretted (m : BoundedCTModel) : Prop where
  known : 1 < m.rootWeights.length
  empty : ∀ v, m.weight v 0 = if v = rootNode then 1 else 0
  interface : ∀ v, m.weight v 1 ≤ 0
  mistaken : m.prediction = 0 ∨ 0 < m.mistakes

lemma fresh_unregretted (bound : UInt32) (predictionId : ℕ) :
    Unregretted (fresh bound predictionId) := by
  refine ⟨Nat.lt_succ_self 1, fun v => ?_, fun v => ?_, Or.inl rfl⟩
  · by_cases hv : v = rootNode
    · simp [Members.weight, fresh, hv]
    · simp [Members.weight, fresh, hv]
  · by_cases hv : v = rootNode
    · simp [Members.weight, fresh, hv]
    · simp [Members.weight, fresh, hv]

lemma Unregretted.blamed {m : BoundedCTModel} (h : Unregretted m) : Unregretted (blamed m) := by
  have hroot : (BoundedCTModel.blamed m).rootWeights = m.rootWeights := by
    rw [BoundedCTModel.blamed, addWord_same]
  have hweight (v w : ℕ) : (BoundedCTModel.blamed m).weight v w = m.weight v w := by
    rw [BoundedCTModel.blamed, addWord_same]
    rfl
  refine ⟨hroot ▸ h.known, fun v => ?_, fun v => ?_, Or.inr (Nat.succ_pos _)⟩
  · rw [hweight]
    exact h.empty v
  · rw [hweight]
    exact h.interface v

lemma Fed.unregretted {m m' : BoundedCTModel} {contextId : ℕ} {depth : ℤ} (h : Unregretted m)
    (hne : m.prediction ≠ 0) (hf : Fed p m false contextId depth m') : Unregretted m' := by
  obtain ⟨hsame, hroot, _⟩ := hf.same
  cases hf with
  | rejected => exact h
  | settled _ _ _ hc =>
    refine ⟨hroot ▸ h.known, fun v => ?_, fun v => ?_, ?_⟩
    · refine (hc.weight v 0).trans ?_
      rw [if_neg (fun hh => hne hh.2.1.symm), Int.add_zero]
      exact h.empty v
    · refine (hc.weight v 1).le.trans ?_
      have hle := h.interface v
      simp only [feedback, Bool.false_eq_true, ↓reduceIte]
      split
      · omega
      · omega
    · rw [hsame]
      exact h.mistaken

lemma Corrected.unregretted {m m' : BoundedCTModel} (hfit : Fitting m) (h : Unregretted m)
    (hne : m.addWord.currentToken ≠ 0) (hc : Corrected p m m') :
    Unregretted m' ∧ 0 < m'.mistakes := by
  cases hc with
  | right hn =>
    have hprediction : m.addWord.prediction = m.addWord.currentToken :=
      not_not.mp (fun hh => hn ((mistaken_iff hfit).mpr hh))
    have hmistakes : 0 < m.addWord.mistakes := by
      rw [addWord_same]
      rcases h.mistaken with hz | hpos
      · rw [← hprediction, addWord_same] at hne
        exact (hne hz).elim
      · exact hpos
    refine ⟨⟨?_, fun v => ?_, fun v => ?_, Or.inr hmistakes⟩, hmistakes⟩
    · rw [addWord_same]
      exact h.known
    · rw [addWord_same]
      exact h.empty v
    · rw [addWord_same]
      exact h.interface v
  | wrong _ hf =>
    refine ⟨hf.unregretted p h.blamed hne, ?_⟩
    rw [hf.same.1]
    exact Nat.succ_pos _

lemma growRootWeights_prefix (mistakes n : ℕ) (rootWeights : List ℤ) :
    rootWeights <+: growRootWeights mistakes n rootWeights := by
  induction n generalizing rootWeights with
  | zero => exact List.prefix_rfl
  | succ n ih => exact (List.prefix_append _ _).trans (ih _)

lemma Foretold.weight {m m' : BoundedCTModel} {contextId : ℕ} {con : Context (List ℤ)}
    {t : ContextTree ℕ (List ℤ)} {word : ℕ} {data : List ℤ}
    (hf : Foretold m m' contextId con t word data) (v : ℕ) {w : ℕ}
    (hw : w < m.rootWeights.length) : m'.weight v w = m.weight v w := by
  obtain ⟨added, hgrown⟩ := growRootWeights_prefix m.mistakes
    (m.tokenNumber - m.rootWeights.length) m.rootWeights
  rw [hf.result]
  simp only [Members.weight, predicted]
  by_cases hv : v = rootNode
  · rw [if_pos hv, if_pos hv, ← hgrown, List.getElem?_append_left hw]
  · rw [if_neg hv, if_neg hv]

lemma Foretold.unregretted {m m' : BoundedCTModel} {contextId : ℕ} {con : Context (List ℤ)}
    {t : ContextTree ℕ (List ℤ)} {word : ℕ} {data : List ℤ} (h : Unregretted m)
    (hpos : 0 < m.mistakes) (hf : Foretold m m' contextId con t word data) : Unregretted m' := by
  have hknown := h.known
  refine ⟨?_, fun v => ?_, fun v => ?_, Or.inr ?_⟩
  · rw [hf.result]
    change 1 < (growRootWeights _ _ _).length
    rw [growRootWeights_length]
    exact Nat.lt_of_lt_of_le hknown (Nat.le_add_right _ _)
  · rw [hf.weight v (Nat.zero_lt_of_lt hknown)]
    exact h.empty v
  · rw [hf.weight v hknown]
    exact h.interface v
  · rw [hf.result]
    exact hpos

lemma Stepped.unregretted {m m' : BoundedCTModel} {c : Call} (hfit : Fitting m)
    (hw : m.words[0]? = some []) (hs : Stepped p m c m')
    (hc : ∀ id, c ≠ .predictionResult id false) (h : Unregretted m) : Unregretted m' := by
  cases hs with
  | quiet he =>
    rw [he]
    exact ⟨h.known, h.empty, h.interface, h.mistaken⟩
  | @regretted contextId => exact (hc contextId rfl).elim
  | @committed m₁ _ _ _ _ _ _ hpos hcor _ hfor =>
    have hne := currentToken_ne_zero hfit hw (List.ne_nil_of_length_pos hpos)
    obtain ⟨hun, hmistakes⟩ := hcor.unregretted p hfit h hne
    exact hfor.unregretted (m := m₁.pushContext) ⟨hun.known, hun.empty, hun.interface, hun.mistaken⟩ hmistakes

variable {p} in
lemma Reached.unregretted {guard : BoundedCTModel × List Commit → Call → Prop} {bound : UInt32}
    {predictionId : ℕ} {calls : List Call} {s : BoundedCTModel × List Commit}
    (h : Reached p guard bound predictionId calls s)
    (hcalls : ∀ id, Call.predictionResult id false ∉ calls) : Unregretted s.1 := by
  refine (Runs.Run.invariant_of_mem (P := fun s : BoundedCTModel × List Commit =>
    ((Fitting s.1 ∧ Complete s.1) ∧ s.1.words[0]? = some []) ∧ Unregretted s.1) h ?_
    ⟨⟨⟨fresh_fitting bound predictionId, rfl⟩, rfl⟩, fresh_unregretted bound predictionId⟩).2
  rintro s s' c hmem ⟨⟨⟨hf, hc⟩, hw⟩, hun⟩ _ he
  have hs := Stepped.of_ok p hf hc (Runs.traced_eq_ok.mp he).1
  refine ⟨⟨hs.fitting p hf hc, hs.words p hw⟩, hs.unregretted p hf hw ?_ hun⟩
  rintro id rfl
  exact hcalls id hmem

lemma Unregretted.total {m : BoundedCTModel} (h : Unregretted m) (hpos : 0 < m.mistakes)
    (visited : List ℕ) {least : ℕ} (hl : Minimiser (m.total visited) m.rootWeights.length least) :
    m.total visited least < m.mistakes ∧ least ≠ 0 := by
  have hwalk (w : ℕ) (hw : ∀ v, v ≠ rootNode → m.weight v w ≤ 0) :
      m.walkWeight visited w ≤ 0 := by
    refine (List.sum_le_card_nsmul _ 0 fun x hx => ?_).trans_eq (nsmul_zero _)
    obtain ⟨v, hv, rfl⟩ := List.mem_map.mp hx
    exact hw v (by simpa using (List.mem_filter.mp hv).2)
  have hone : m.total visited 1 ≤ 0 :=
    Int.add_nonpos (h.interface rootNode) (hwalk 1 (fun v _ => h.interface v))
  have hzero : m.total visited 0 = 1 := by
    have hsum : m.walkWeight visited 0 = 0 := by
      apply List.sum_eq_zero
      intro x hx
      obtain ⟨v, hv, rfl⟩ := List.mem_map.mp hx
      have hne : v ≠ rootNode := by simpa using (List.mem_filter.mp hv).2
      rw [h.empty, if_neg hne]
    rw [Members.total, hsum, h.empty, if_pos rfl, Int.add_zero]
  have hle := hl.le 1 h.known
  refine ⟨by omega, ?_⟩
  rintro rfl
  omega

theorem minimisers_law (pastEnd : Graph → ℕ → ℕ → ℕ) (bound : UInt32) (predictionId : ℕ)
    (hid : predictionId ≠ 20) (calls : List Call) (s : BoundedCTModel × List Commit)
    (h : Reached ⟨pastEnd, .dropped⟩ Pooled bound predictionId calls s)
    (hword : s.1.currentString ≠ []) :
    ∃ r m' con least, prepare ⟨pastEnd, .dropped⟩ s.1 = .ok r ∧
      step ⟨pastEnd, .dropped⟩ s.1 (.interface true) = .ok m' ∧
      m'.ct.contexts[m'.predictionId]? = some con ∧
      con.data = (List.range r.rootWeights.length).map (r.total r.walked) ∧
      Predictable r.toMembers r.walked ∧
      Minimiser (r.total r.walked) r.rootWeights.length least ∧
      m'.prediction = (if r.total r.walked least < r.mistakes then least else 0) ∧
      m'.words[0]? = some [] ∧
      ((∀ id, Call.predictionResult id false ∉ calls) →
        r.total r.walked least < r.mistakes ∧ m'.words[m'.prediction]? ≠ some []) := by
  obtain ⟨hf, hc⟩ := h.fitting
  have hwords := h.words
  have hpos : 0 < s.1.currentString.length := List.length_pos_iff.mpr hword
  obtain ⟨m₁, m', contextId, con, t, word, data, hcor, hprepare, he, hfor, hsum⟩ :=
    commit_ok ⟨pastEnd, .dropped⟩ hf hc hpos (fun _ => ⟨h.predictionId_ne hid, fun _ => Or.inl rfl⟩)
  have hs : Stepped ⟨pastEnd, .dropped⟩ s.1 (.interface true) m' :=
    .committed hpos hcor hprepare hfor
  have hfit := hcor.pushContext_fitting _ hf
  have hwords' := hs.words _ hwords
  obtain ⟨least, hleast, hchosen⟩ := hsum.least
  have hprediction : m'.prediction = word := by
    rw [hfor.result]
    rfl
  have hcon : m'.ct.contexts[m'.predictionId]? = some { con with data := data } := by
    rw [hfor.result]
    simp [predicted, setData_getElem?, hfor.made.getElem? hfit.sound]
  refine ⟨m₁.pushContext, m', _, least, hprepare, he, hcon, hsum.data_eq,
    predictable hfit (hcor.visited _ hf hc), hleast, hprediction.trans hchosen, hwords', ?_⟩
  intro hcalls
  have hne := currentToken_ne_zero hf hwords hword
  obtain ⟨hun, hmistakes⟩ := hcor.unregretted _ hf (h.unregretted hcalls) hne
  obtain ⟨hlt, hleast_ne⟩ := hun.total hmistakes _ hleast
  refine ⟨hlt, fun hempty => hleast_ne ?_⟩
  rw [hprediction, hchosen, if_pos hlt] at hempty
  have hmap := (hs.fitting _ hf hc).1.wordMap []
  rw [← hmap] at hempty hwords'
  rw [hempty, Option.some.injEq] at hwords'
  exact hwords'

theorem minimisers_law_first : ∃ s r m' con least,
    Reached ⟨fun _ _ _ => 0, .dropped⟩ Pooled 5 7 [.putc 97, .interface true, .putc 98] s ∧
    prepare ⟨fun _ _ _ => 0, .dropped⟩ s.1 = .ok r ∧
    step ⟨fun _ _ _ => 0, .dropped⟩ s.1 (.interface true) = .ok m' ∧
    m'.ct.contexts[m'.predictionId]? = some con ∧
    con.data = (List.range r.rootWeights.length).map (r.total r.walked) ∧
    m'.prediction = (if r.total r.walked least < r.mistakes then least else 0) ∧
    m'.words[m'.prediction]? ≠ some [] := by
  have h : Reached ⟨fun _ _ _ => 0, .dropped⟩ Pooled 5 7
      [.putc 97, .interface true, .putc 98] _ :=
    .cons trivial rfl (.cons trivial rfl (.cons trivial rfl .nil))
  obtain ⟨r, m', con, least, hr, he, hcon, hdata, _, _, hprediction, _, hlast⟩ :=
    minimisers_law _ 5 7 (by decide) _ _ h (by decide)
  exact ⟨_, r, m', con, least, h, hr, he, hcon, hdata, hprediction, (hlast (by simp)).2⟩

end WordModel.BoundedCTModel
