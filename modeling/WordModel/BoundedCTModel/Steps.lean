import WordModel.BoundedCTModel.Sizes

/-! What each call does to the model, and when it can do it. -/

namespace WordModel.BoundedCTModel

open Checked ContextTree Follow

variable (p : Platform)

def Complete (m : BoundedCTModel) : Prop := m.rootWeights.length = m.tokenNumber

def Mistaken (m : BoundedCTModel) : Prop := m.wordMap.lookup m.currentString ≠ some m.prediction

instance (m : BoundedCTModel) : Decidable (Mistaken m) :=
  inferInstanceAs (Decidable (_ ≠ _))

lemma addWord_same (m : BoundedCTModel) :
    m.addWord = { m with
      wordMap := m.addWord.wordMap, tokenNumber := m.addWord.tokenNumber
      words := m.addWord.words } := by
  rw [addWord]
  split <;> rfl

lemma addWord_eq_of_none {m : BoundedCTModel} (h : m.wordMap.lookup m.currentString = none) :
    m.addWord = { m with
      wordMap := m.wordMap.insert m.currentString m.tokenNumber
      tokenNumber := m.tokenNumber + 1
      words := m.words ++ [m.currentString] } := by
  rw [addWord, h]

lemma addWord_of_none {m : BoundedCTModel} (h : m.wordMap.lookup m.currentString = none) :
    m.addWord.tokenNumber = m.tokenNumber + 1 ∧ m.addWord.currentToken = m.tokenNumber := by
  rw [addWord_eq_of_none h]
  simp [currentToken]

lemma addWord_of_some {m : BoundedCTModel} {n : ℕ}
    (h : m.wordMap.lookup m.currentString = some n) : m.addWord = m ∧ m.addWord.currentToken = n := by
  have he : m.addWord = m := by rw [addWord, h]
  refine ⟨he, ?_⟩
  rw [he, currentToken, h, Option.getD_some]

lemma addWord_lookup (m : BoundedCTModel) :
    m.addWord.wordMap.lookup m.currentString = some m.addWord.currentToken := by
  cases hw : m.wordMap.lookup m.currentString with
  | some n =>
    rw [(addWord_of_some hw).2, (addWord_of_some hw).1, hw]
  | none =>
    rw [(addWord_of_none hw).2, addWord_eq_of_none hw]
    simp

lemma addWord_fitting {m : BoundedCTModel} (h : Fitting m) : Fitting m.addWord := by
  cases hw : m.wordMap.lookup m.currentString with
  | some n => rwa [(addWord_of_some hw).1]
  | none =>
    have hlen := h.words_length
    have hlt := h.prediction_lt
    have hknown := h.known
    rw [addWord_eq_of_none hw]
    refine ⟨h.sound, h.numbered, h.maxContexts, by simp [hlen], fun w n => ?_, by dsimp only; omega,
      h.positive, by dsimp only; omega, h.weights_length,
      fun v ws hget k hk => Nat.lt_succ_of_lt (h.keys v ws hget k hk),
      fun n hn => Nat.lt_succ_of_lt (h.dataMap n hn),
      fun n hn => Nat.lt_succ_of_lt (h.context n hn), h.context_length⟩
    dsimp only
    by_cases hc : w = m.currentString
    · subst hc
      have hnot (n : ℕ) : m.words[n]? ≠ some m.currentString := by
        rw [ne_eq, ← h.wordMap, hw]
        simp
      rw [AList.lookup_insert]
      rcases Nat.lt_trichotomy n m.words.length with hn | hn | hn
      · rw [List.getElem?_append_left hn]
        simp only [hnot, iff_false, Option.some.injEq]
        omega
      · simp [hn, hlen]
      · rw [List.getElem?_eq_none (by simp; omega)]
        simp only [Option.some.injEq, reduceCtorEq, iff_false]
        omega
    · rw [AList.lookup_insert_ne hc, h.wordMap]
      rcases Nat.lt_trichotomy n m.words.length with hn | hn | hn
      · rw [List.getElem?_append_left hn]
      · simp [hn, eq_comm, hc]
      · rw [List.getElem?_eq_none (by omega), List.getElem?_eq_none (by simp; omega)]

lemma mistaken_iff {m : BoundedCTModel} (h : Fitting m) :
    Mistaken m ↔ m.addWord.prediction ≠ m.addWord.currentToken := by
  have hp : m.addWord.prediction = m.prediction := by rw [addWord_same]
  have hlt := h.prediction_lt
  rw [hp, Mistaken]
  cases hw : m.wordMap.lookup m.currentString with
  | some n =>
    rw [(addWord_of_some hw).2, ne_eq, ne_eq, Option.some.injEq, eq_comm]
  | none =>
    rw [(addWord_of_none hw).2]
    simp only [ne_eq, reduceCtorEq, not_false_eq_true, true_iff]
    omega

lemma mistaken_eq {m : BoundedCTModel} (h : Fitting m) :
    decide (m.words[m.prediction]? ≠ some m.currentString) = decide (Mistaken m) := by
  rw [decide_eq_decide, Mistaken, ne_eq, ne_eq, h.wordMap]

/-- The model that takes the blame: it holds the right word as its prediction. -/
def blamed (m : BoundedCTModel) : BoundedCTModel :=
  { m.addWord with mistakes := m.addWord.mistakes + 1, prediction := m.addWord.currentToken }

lemma blamed_fitting {m : BoundedCTModel} (h : Fitting m) : Fitting (blamed m) := by
  have ha := addWord_fitting h
  have hlt : m.addWord.currentToken < m.addWord.tokenNumber := by
    have hl := (ha.wordMap _ _).mp (addWord_lookup m)
    have := (List.getElem?_eq_some_iff.mp hl).1
    rwa [ha.words_length] at this
  exact ⟨ha.sound, ha.numbered, ha.maxContexts, ha.words_length, ha.wordMap, hlt, ha.positive,
    ha.known, ha.weights_length, ha.keys, ha.dataMap, ha.context, ha.context_length⟩

lemma blamed_chargeable {m : BoundedCTModel} (h : Fitting m) (hc : Complete m) :
    Chargeable p (blamed m) ↔ p.overrun = .dropped ∨ m.currentString ∈ m.wordMap := by
  have hroot : (blamed m).rootWeights = m.rootWeights := by
    rw [blamed, addWord_same]
  have hmem : m.currentString ∈ m.wordMap ↔ ∃ n, m.wordMap.lookup m.currentString = some n := by
    rw [← AList.lookup_isSome, Option.isSome_iff_exists]
  rw [Chargeable, hroot, hc, hmem]
  apply or_congr_right
  change m.addWord.currentToken < m.tokenNumber ↔ _
  cases hw : m.wordMap.lookup m.currentString with
  | some n =>
    rw [(addWord_of_some hw).2]
    have hlt := (List.getElem?_eq_some_iff.mp ((h.wordMap _ _).mp hw)).1
    rw [h.words_length] at hlt
    simpa using hlt
  | none =>
    rw [(addWord_of_none hw).2]
    simp

inductive Corrected (m : BoundedCTModel) : BoundedCTModel → Prop
  | right : ¬ Mistaken m → Corrected m m.addWord
  | wrong {m'} : Mistaken m → Fed p (blamed m) false m.predictionId m.depth m' → Corrected m m'

def SafeCommit (m : BoundedCTModel) : Prop :=
  Mistaken m → m.predictionId ≠ 20 ∧
    (m.predictionId ∈ m.ct.activeIds → p.overrun = .dropped ∨ m.currentString ∈ m.wordMap)

lemma correct_cases {m : BoundedCTModel} (h : Fitting m) (hc : Complete m) :
    (SafeCommit p m ∧ ∃ m', correct p m.addWord = .ok m' ∧ Corrected p m m') ∨
      (¬ SafeCommit p m ∧ ∃ e, correct p m.addWord = .error e) := by
  by_cases hm : Mistaken m
  · have hne := (mistaken_iff h).mp hm
    have hid : m.addWord.predictionId = m.predictionId := by rw [addWord_same]
    have hdepth : m.addWord.depth = m.depth := by
      rw [addWord_same]
      rfl
    have hactive : (blamed m).ct = m.ct := by rw [blamed, addWord_same]
    have hcorrect : correct p m.addWord =
        serveTree p (blamed m) (request false m.predictionId m.depth) := by
      rw [correct, if_pos hne, ← hid, ← hdepth]
      rfl
    have hsafe : SafeCommit p m ↔ m.predictionId ≠ 20 ∧
        (m.predictionId ∈ (blamed m).ct.activeIds → Chargeable p (blamed m)) := by
      rw [hactive, blamed_chargeable p h hc]
      exact ⟨fun hh => hh hm, fun hh _ => hh⟩
    rw [hcorrect, hsafe]
    rcases serveTree_cases p (blamed_fitting h) false m.predictionId m.depth with
      ⟨hs, m', he, hf⟩ | ⟨hs, he⟩
    · exact Or.inl ⟨hs, m', he, .wrong hm hf⟩
    · exact Or.inr ⟨hs, he⟩
  · have heq : ¬ m.addWord.prediction ≠ m.addWord.currentToken :=
      fun hne => hm ((mistaken_iff h).mpr hne)
    exact Or.inl ⟨fun hh => (hm hh).elim, m.addWord, by rw [correct, if_neg heq], .right hm⟩

lemma Corrected.same {m m' : BoundedCTModel} (h : Corrected p m m') :
    m' = { m.addWord with
        mistakes := m'.mistakes, prediction := m'.prediction, weights := m'.weights
        rootWeights := m'.rootWeights, ct := m'.ct } ∧
      m'.rootWeights.length = m.rootWeights.length ∧ m'.ct.tokens = m.ct.tokens := by
  cases h with
  | right =>
    refine ⟨rfl, ?_, ?_⟩
    · rw [addWord_same]
    · rw [addWord_same]
  | wrong _ hf =>
    obtain ⟨hs, hroot, htokens⟩ := hf.same
    have hmistakes : m'.mistakes = (blamed m).mistakes := by rw [hs]
    have hprediction : m'.prediction = (blamed m).prediction := by rw [hs]
    refine ⟨?_, hroot.trans ?_, htokens.trans ?_⟩
    · rw [hmistakes, hprediction]
      exact hs
    · rw [blamed, addWord_same]
    · rw [blamed, addWord_same]

lemma Corrected.fitting {m m' : BoundedCTModel} (h : Fitting m) (hc : Corrected p m m') :
    Fitting m' := by
  cases hc with
  | right => exact addWord_fitting h
  | wrong _ hf => exact hf.fitting p (blamed_fitting h)

lemma Corrected.mistakes {m m' : BoundedCTModel} (h : Corrected p m m') :
    m'.mistakes = m.mistakes + if Mistaken m then 1 else 0 := by
  cases h with
  | right hn =>
    rw [if_neg hn, addWord_same]
    rfl
  | wrong hm hf =>
    rw [if_pos hm, hf.same.1, blamed, addWord_same]

lemma popWhileOver_eq (bound : ℕ) (ns : List ℕ) :
    popWhileOver bound ns = ns.drop (ns.length - bound) := by
  induction ns with
  | nil => rw [popWhileOver, List.drop_nil]
  | cons n ns ih =>
    rw [popWhileOver]
    split
    · rename_i hlt
      rw [List.length_cons] at hlt ⊢
      rw [ih, show ns.length + 1 - bound = (ns.length - bound) + 1 by omega, List.drop_succ_cons]
    · rename_i hge
      rw [show (n :: ns).length - bound = 0 by omega, List.drop_zero]

lemma pushContext_fitting {m : BoundedCTModel} (h : Fitting m)
    (ht : m.currentToken < m.tokenNumber) : Fitting m.pushContext := by
  refine ⟨h.sound, h.numbered, h.maxContexts, h.words_length, h.wordMap, h.prediction_lt, h.positive,
    h.known, h.weights_length, h.keys, h.dataMap, fun n hn => ?_, ?_⟩
  · rw [pushContext] at hn ⊢
    dsimp only at hn ⊢
    rw [popWhileOver_eq] at hn
    have hmem := List.mem_of_mem_drop hn
    rw [List.mem_append, List.mem_singleton] at hmem
    rcases hmem with hmem | rfl
    · exact h.context n hmem
    · exact ht
  · rw [pushContext]
    dsimp only
    rw [popWhileOver_eq, List.length_drop]
    omega

lemma Corrected.currentToken {m m' : BoundedCTModel} (h : Corrected p m m') :
    m'.currentToken = m.addWord.currentToken := by
  rw [h.same.1]
  rfl

lemma Corrected.pushContext_fitting {m m' : BoundedCTModel} (h : Fitting m)
    (hc : Corrected p m m') : Fitting m'.pushContext := by
  apply BoundedCTModel.pushContext_fitting (hc.fitting p h)
  have hlt : (blamed m).prediction < (blamed m).tokenNumber := (blamed_fitting h).prediction_lt
  have htoken : m'.tokenNumber = (blamed m).tokenNumber := by
    rw [hc.same.1]
    rfl
  rw [hc.currentToken, htoken]
  exact hlt

lemma Corrected.visited {m m' : BoundedCTModel} (h : Fitting m) (hm : Complete m)
    (hc : Corrected p m m') : Complete m'.pushContext ∨
      m'.pushContext.ct.visited m'.pushContext.predictionContext = [rootNode] := by
  obtain ⟨hsame, hroot, htokens⟩ := hc.same
  have htoken : m'.tokenNumber = m.addWord.tokenNumber := by rw [hsame]
  cases hw : m.wordMap.lookup m.currentString with
  | some n =>
    left
    change m'.rootWeights.length = m'.tokenNumber
    rw [hroot, htoken, (addWord_of_some hw).1]
    exact hm
  | none =>
    right
    have hnew : m'.currentToken = m.tokenNumber := hc.currentToken.trans (addWord_of_none hw).2
    have hzero : m'.ct.root = 0 := (hc.fitting p h).sound.root_eq
    have hmiss (v : ℕ) : nextVertex m'.ct.tree m'.ct.tokens v m.tokenNumber = none := by
      have hnot : m.tokenNumber ∉ m.ct.tokens.dataMap := fun hmem =>
        Nat.lt_irrefl _ (h.dataMap _ hmem)
      rw [nextVertex, htokens, AList.lookup_eq_none.mpr hnot]
      rfl
    rw [ContextTree.visited, pushContext]
    dsimp only
    rw [hzero, popWhileOver_eq, hnew, List.reverse_drop, List.reverse_append]
    simp only [List.reverse_cons, List.reverse_nil, List.nil_append, List.cons_append]
    generalize (m'.predictionContext ++ [m.tokenNumber]).length -
      ((m'.predictionContext ++ [m.tokenNumber]).length - m'.bound.toNat) = k
    cases k with
    | zero => rfl
    | succ k => simp [walk, hmiss, rootNode]

structure Foretold (m m' : BoundedCTModel) (contextId : ℕ) (con : Context (List ℤ))
    (t : ContextTree ℕ (List ℤ)) (word : ℕ) (data : List ℤ) : Prop where
  made : Predicted m.ct t m.predictionContext contextId con
  word_lt : word < m.rootWeights.length
  result : m' = { predicted { m.toMembers with predictionId := contextId } word with
    ct := t.setData contextId data
    currentString := []
    detectedInterface := contextId == interfaceId }

lemma predictable {m : BoundedCTModel} (h : Fitting m)
    (hv : Complete m ∨ m.ct.visited m.predictionContext = [rootNode]) :
    Predictable m.toMembers (m.ct.visited m.predictionContext) := by
  intro v hmem hne
  rcases hv with hc | hv
  · have hlt := h.sound.visited_lt _ v hmem
    have hw := h.weights_length
    have hz : v ≠ 0 := hne
    have hget := List.getElem?_eq_getElem (l := m.weights) (i := v - 1) (by omega)
    refine ⟨_, hget, fun k hk => ?_⟩
    rw [hc]
    exact h.keys _ _ hget k hk
  · rw [hv, List.mem_singleton] at hmem
    exact (hne hmem).elim

lemma predictNext_spec {m : BoundedCTModel} (h : Fitting m)
    (hv : Complete m ∨ m.ct.visited m.predictionContext = [rootNode]) :
    ∃ m' contextId con t word data, predictNext p m = .ok m' ∧
      m.ct.predict m.predictionContext =
        .ok (contextId, t, predictCalls m.ct m.predictionContext) ∧
      Foretold m m' contextId con t word data ∧
      Summed m.toMembers (m.ct.visited m.predictionContext) word data := by
  obtain ⟨contextId, con, t, he, hp⟩ := h.sound.predict_spec m.predictionContext
  obtain ⟨word, data, hsum, hvisit⟩ := visitAll_predictCalls p.overrun
    (m := { m.toMembers with predictionId := contextId }) (predictable h hv) h.positive con.data
  refine ⟨_, contextId, con, t, word, data, ?_, he, ⟨hp, hsum.lt, rfl⟩, hsum.data_eq, hsum.least⟩
  have hcalls : predictCalls m.ct m.predictionContext = .startPredict ::
      (m.ct.visited m.predictionContext).mapIdx (fun k v => .pushPredict v k) ++
        [.finishPredict] := rfl
  rw [predictNext, he, ok_bind]
  dsimp only
  rw [deliver_eq _ (hp.getElem? h.sound), hcalls, hvisit]
  rfl

lemma predictNext_ok {m : BoundedCTModel} (h : Fitting m)
    (hv : Complete m ∨ m.ct.visited m.predictionContext = [rootNode]) :
    ∃ m' contextId con t word data, predictNext p m = .ok m' ∧
      Foretold m m' contextId con t word data ∧
      Summed m.toMembers (m.ct.visited m.predictionContext) word data := by
  obtain ⟨m', contextId, con, t, word, data, he, -, hfor, hsum⟩ := predictNext_spec p h hv
  exact ⟨m', contextId, con, t, word, data, he, hfor, hsum⟩

lemma Foretold.fitting {m m' : BoundedCTModel} {contextId : ℕ} {con : Context (List ℤ)}
    {t : ContextTree ℕ (List ℤ)} {word : ℕ} {data : List ℤ} (h : Fitting m)
    (hf : Foretold m m' contextId con t word data) : Fitting m' ∧ Complete m' := by
  have hgrow := growRootWeights_length m.mistakes (m.tokenNumber - m.rootWeights.length)
    m.rootWeights
  have hknown := h.known
  have hword := hf.word_lt
  have hpos := h.positive
  have hct : t.tree = m.ct.tree ∧ t.maxContexts = m.ct.maxContexts := by
    rw [hf.made.same]
    exact ⟨rfl, rfl⟩
  have hcomplete : Complete m' := by
    rw [hf.result, Complete]
    change (growRootWeights m.mistakes (m.tokenNumber - m.rootWeights.length)
      m.rootWeights).length = m.tokenNumber
    omega
  refine ⟨?_, hcomplete⟩
  have hroot : m'.rootWeights.length = m'.tokenNumber := hcomplete
  have htoken : m'.tokenNumber = m.tokenNumber := by rw [hf.result, predicted]
  refine ⟨?_, ?_, ?_, ?_, ?_, ?_, by omega, by omega, ?_, ?_, ?_, ?_, ?_⟩
  · rw [hf.result]
    exact (hf.made.sound h.sound).setData contextId data
  · rw [hf.result]
    exact (SameButData.setData contextId data).numbered (hf.made.numbered h.sound h.numbered)
  · rw [hf.result]
    exact hct.2.trans h.maxContexts
  · rw [hf.result]
    exact h.words_length
  · rw [hf.result]
    exact h.wordMap
  · rw [hf.result]
    change word < m.tokenNumber
    omega
  · rw [hf.result]
    change m.weights.length + 1 = t.tree.length
    rw [hct.1]
    exact h.weights_length
  · rw [hf.result]
    exact h.keys
  · rw [hf.result]
    intro n hn
    rcases hf.made.mem_dataMap hn with hn' | hn'
    · exact h.dataMap n hn'
    · exact h.context n hn'
  · rw [hf.result]
    exact h.context
  · rw [hf.result]
    exact h.context_length

lemma commits_committed {m m' r : BoundedCTModel} (hpos : 0 < m.currentString.length)
    (hr : prepare p m = .ok r) : commits p m (.interface true) m' =
      [{ word := m.currentString
         mistaken := decide (m.words[m.prediction]? ≠ some m.currentString)
         contextId := m'.predictionId
         prediction := m'.prediction
         visited := r.visitedFrom }] := by
  simp only [commits, if_pos hpos, hr]

lemma commits_predictionResult (m m' : BoundedCTModel) (id : ℕ) (outcome : Bool) :
    commits p m (.predictionResult id outcome) m' = [] := by
  simp [commits]

inductive Stepped (m : BoundedCTModel) : Call → BoundedCTModel → Prop
  | quiet {c m'} : m' = { m with
        currentString := m'.currentString, predictionId := m'.predictionId } →
      ((∀ id, c ≠ .getPrediction (some id)) → m'.predictionId = m.predictionId) →
      (∀ m', commits p m c m' = []) → Stepped m c m'
  | regretted {contextId m'} : Fed p m true contextId m.depth m' →
      Stepped m (.predictionResult contextId false) m'
  | committed {m₁ m' contextId con t word data} : 0 < m.currentString.length → Corrected p m m₁ →
      prepare p m = .ok m₁.pushContext →
      Foretold m₁.pushContext m' contextId con t word data → Stepped m (.interface true) m'

/-- The call finds everything it reads and writes. -/
def SafeCall (m : BoundedCTModel) : Call → Prop
  | .interface true => 0 < m.currentString.length → SafeCommit p m
  | .predictionResult contextId false => contextId ≠ 20
  | _ => True

lemma putc_same (m : BoundedCTModel) (c : UInt8) :
    (m.putc c).1 = { m with currentString := (m.putc c).1.currentString } := by
  simp only [putc]
  split
  · split
    · split <;> rfl
    · rfl
  · rfl

lemma commit_ok {m : BoundedCTModel} (h : Fitting m) (hc : Complete m)
    (hpos : 0 < m.currentString.length) (hs : SafeCommit p m) :
    ∃ m₁ m' contextId con t word data, Corrected p m m₁ ∧ prepare p m = .ok m₁.pushContext ∧
      step p m (.interface true) = .ok m' ∧
      Foretold m₁.pushContext m' contextId con t word data ∧
      Summed m₁.toMembers (m₁.ct.visited m₁.pushContext.predictionContext) word data := by
  rcases correct_cases p h hc with ⟨_, m₁, he, hcor⟩ | ⟨hn, _⟩
  · have hprepare : prepare p m = .ok m₁.pushContext := by
      rw [prepare, he, ok_bind, pure_eq_ok]
    obtain ⟨m', contextId, con, t, word, data, hnext, hfor, hsum⟩ :=
      predictNext_ok p (hcor.pushContext_fitting p h) (hcor.visited p h hc)
    refine ⟨m₁, m', contextId, con, t, word, data, hcor, hprepare, ?_, hfor,
      hsum.data_eq, hsum.least⟩
    simp [step, interface, hpos, doPredict, hprepare, hnext]
  · exact (hn hs).elim

lemma step_cases {m : BoundedCTModel} (h : Fitting m) (hc : Complete m) (c : Call) :
    (SafeCall p m c ∧ ∃ m', step p m c = .ok m' ∧ Stepped p m c m') ∨
      (¬ SafeCall p m c ∧ ∃ e, step p m c = .error e) := by
  cases c with
  | putc c =>
    refine Or.inl ⟨trivial, _, rfl, .quiet ?_ (fun _ => ?_) (fun _ => rfl)⟩
    · rw [putc_same]
    · rw [putc_same]
  | getPrediction id =>
    obtain ⟨word, hword⟩ : ∃ word, m.words[m.prediction]? = some word :=
      ⟨_, List.getElem?_eq_getElem (by rw [h.words_length]; exact h.prediction_lt)⟩
    cases id with
    | none =>
      refine Or.inl ⟨trivial, m, ?_, .quiet rfl (fun _ => rfl) (fun _ => rfl)⟩
      simp [step, getPrediction, fetch_of_getElem? hword]
    | some id =>
      refine Or.inl ⟨trivial, { m with predictionId := id }, ?_,
        .quiet rfl (fun hne => (hne id rfl).elim) (fun _ => rfl)⟩
      simp [step, getPrediction, fetch_of_getElem? hword]
  | predictionResult contextId outcome =>
    cases outcome with
    | true => exact Or.inl ⟨trivial, m, rfl, .quiet rfl (fun _ => rfl) (fun _ => rfl)⟩
    | false =>
      have hroot : Chargeable p m := by
        refine Or.inr ?_
        rw [hc]
        exact h.prediction_lt
      rcases serveTree_cases p h true contextId m.depth with ⟨hs, m', he, hf⟩ | ⟨hs, e, he⟩
      · exact Or.inl ⟨hs.1, m', he, .regretted hf⟩
      · exact Or.inr ⟨fun hne => hs ⟨hne, fun _ => hroot⟩, e, he⟩
  | interface atInterface =>
    cases atInterface with
    | false =>
      refine Or.inl ⟨trivial, m, ?_, .quiet rfl (fun _ => rfl) (fun _ => rfl)⟩
      simp [step, interface]
    | true =>
      by_cases hpos : 0 < m.currentString.length
      · by_cases hs : SafeCommit p m
        · obtain ⟨m₁, m', contextId, con, t, word, data, hcor, hprepare, he, hfor, _⟩ :=
            commit_ok p h hc hpos hs
          exact Or.inl ⟨fun _ => hs, m', he, .committed hpos hcor hprepare hfor⟩
        · rcases correct_cases p h hc with ⟨hs', _⟩ | ⟨_, e, he⟩
          · exact (hs hs').elim
          · refine Or.inr ⟨fun hh => hs (hh hpos), e, ?_⟩
            simp [step, interface, hpos, doPredict, prepare, he]
      · refine Or.inl ⟨fun hh => (hpos hh).elim, m, ?_, .quiet rfl (fun _ => rfl) (fun _ => ?_)⟩
        · simp [step, interface, hpos]
        · simp [commits, hpos]

lemma Stepped.of_ok {m m' : BoundedCTModel} (h : Fitting m) (hc : Complete m) {c : Call}
    (he : step p m c = .ok m') : Stepped p m c m' := by
  rcases step_cases p h hc c with ⟨_, m₁, he₁, hs⟩ | ⟨_, e, he₁⟩
  · rw [he, Except.ok.injEq] at he₁
    exact he₁ ▸ hs
  · rw [he] at he₁
    cases he₁

lemma Stepped.fitting {m m' : BoundedCTModel} (h : Fitting m) (hc : Complete m) {c : Call}
    (hs : Stepped p m c m') : Fitting m' ∧ Complete m' := by
  cases hs with
  | quiet he _ _ =>
    rw [he]
    exact ⟨⟨h.sound, h.numbered, h.maxContexts, h.words_length, h.wordMap, h.prediction_lt,
      h.positive, h.known, h.weights_length, h.keys, h.dataMap, h.context, h.context_length⟩, hc⟩
  | regretted hf =>
    obtain ⟨hsame, hroot, _⟩ := hf.same
    refine ⟨hf.fitting p h, ?_⟩
    have htoken : m'.tokenNumber = m.tokenNumber := by rw [hsame]
    rw [Complete, hroot, htoken]
    exact hc
  | committed _ hf _ hfor =>
    exact hfor.fitting (hf.pushContext_fitting p h)

lemma Stepped.predictionId_ne {m m' : BoundedCTModel} {c : Call} (h : Fitting m)
    (hs : Stepped p m c m') (hc : ∀ id, c = .getPrediction (some id) → id ≠ 20)
    (he : step p m c = .ok m') (hid : m.predictionId ≠ 20) : m'.predictionId ≠ 20 := by
  cases hs with
  | @quiet c _ _ hsame _ =>
    by_cases hq : ∃ id, c = .getPrediction (some id)
    · obtain ⟨id, rfl⟩ := hq
      obtain ⟨⟨m₁, _, _⟩, hget, hr⟩ := bind_eq_ok.mp he
      obtain ⟨word, _, hw⟩ := bind_eq_ok.mp hget
      obtain rfl := Except.ok.inj hr
      obtain ⟨rfl, _⟩ := Prod.mk.inj (Except.ok.inj hw)
      exact hc id rfl
    · rw [hsame (fun id hid' => hq ⟨id, hid'⟩)]
      exact hid
  | regretted hf =>
    rw [hf.same.1]
    exact hid
  | committed _ hcor _ hfor =>
    have hlt := hfor.made.lt
    rw [(hcor.pushContext_fitting p h).maxContexts] at hlt
    rw [hfor.result]
    exact Nat.ne_of_lt hlt

def Call.passes : Call → Option ℕ
  | .getPrediction id => id
  | .predictionResult id _ => some id
  | _ => none

lemma step_dropped (pastEnd : Graph → ℕ → ℕ → ℕ) {m : BoundedCTModel} (h : Fitting m)
    (hc : Complete m) (hid : m.predictionId ≠ 20) {c : Call} (hpass : ∀ id ∈ c.passes, id ≠ 20) :
    ∃ m', step ⟨pastEnd, .dropped⟩ m c = .ok m' ∧ Stepped ⟨pastEnd, .dropped⟩ m c m' ∧
      m'.predictionId ≠ 20 := by
  rcases step_cases ⟨pastEnd, .dropped⟩ h hc c with ⟨_, m', he, hs⟩ | ⟨hbad, _⟩
  · refine ⟨m', he, hs, hs.predictionId_ne _ h (fun id hget => ?_) he hid⟩
    subst hget
    exact hpass id rfl
  · refine (hbad ?_).elim
    cases c with
    | putc => trivial
    | getPrediction => trivial
    | predictionResult id outcome =>
      cases outcome with
      | true => trivial
      | false => exact hpass id rfl
    | interface atInterface =>
      cases atInterface with
      | false => trivial
      | true => exact fun _ _ => ⟨hid, fun _ => Or.inl rfl⟩

variable {p} in
lemma Reached.fitting {guard : BoundedCTModel × List Commit → Call → Prop} {bound : UInt32}
    {predictionId : ℕ} {calls : List Call} {s : BoundedCTModel × List Commit}
    (h : Reached p guard bound predictionId calls s) : Fitting s.1 ∧ Complete s.1 := by
  refine Runs.Run.traced_invariant (P := fun s : BoundedCTModel × List Commit =>
    Fitting s.1 ∧ Complete s.1) h ?_ ⟨fresh_fitting bound predictionId, rfl⟩
  rintro m log c m' ⟨hf, hc⟩ _ he
  exact (Stepped.of_ok p hf hc he).fitting p hf hc

variable {p} in
lemma Reached.invariant {guard : BoundedCTModel × List Commit → Call → Prop} {bound : UInt32}
    {predictionId : ℕ} {calls : List Call} {s : BoundedCTModel × List Commit}
    (h : Reached p guard bound predictionId calls s) {P : BoundedCTModel × List Commit → Prop}
    (hstep : ∀ m log c m', Fitting m → Complete m → P (m, log) → guard (m, log) c →
      step p m c = .ok m' → Stepped p m c m' → P (m', log ++ commits p m c m'))
    (hfresh : P (fresh bound predictionId, [])) : P s := by
  refine (Runs.Run.traced_invariant (P := fun s : BoundedCTModel × List Commit =>
    (Fitting s.1 ∧ Complete s.1) ∧ P s) h ?_
    ⟨⟨fresh_fitting bound predictionId, rfl⟩, hfresh⟩).2
  rintro m log c m' ⟨⟨hf, hc⟩, hp⟩ hg he
  have hs := Stepped.of_ok p hf hc he
  exact ⟨hs.fitting p hf hc, hstep m log c m' hf hc hp hg he hs⟩

theorem accesses_law (pastEnd : Graph → ℕ → ℕ → ℕ) (bound : UInt32) (predictionId : ℕ)
    (calls : List Call) (s : BoundedCTModel × List Commit)
    (h : Reached ⟨pastEnd, .faults⟩ (fun _ _ => True) bound predictionId calls s) (c : Call) :
    (∃ m', step ⟨pastEnd, .faults⟩ s.1 c = .ok m') ↔ SafeCall ⟨pastEnd, .faults⟩ s.1 c := by
  obtain ⟨hf, hc⟩ := h.fitting
  rcases step_cases ⟨pastEnd, .faults⟩ hf hc c with ⟨hs, m', he, _⟩ | ⟨hs, e, he⟩
  · exact ⟨fun _ => hs, fun _ => ⟨m', he⟩⟩
  · constructor
    · rintro ⟨m', he'⟩
      rw [he] at he'
      cases he'
    · exact fun hsafe => (hs hsafe).elim

theorem accesses_law_known : ∃ s m',
    Reached ⟨fun _ _ _ => 0, .faults⟩ (fun _ _ => True) 5 7 [.putc 97, .interface true, .putc 97] s ∧
      step ⟨fun _ _ _ => 0, .faults⟩ s.1 (.interface true) = .ok m' := by
  have h : Reached ⟨fun _ _ _ => 0, .faults⟩ (fun _ _ => True) 5 7
      [.putc 97, .interface true, .putc 97] _ :=
    .cons trivial rfl (.cons trivial rfl (.cons trivial rfl .nil))
  obtain ⟨m', he⟩ := (accesses_law _ 5 7 _ _ h (.interface true)).mpr
    (fun _ _ => ⟨by decide, fun _ => Or.inr (by decide)⟩)
  exact ⟨_, m', h, he⟩

theorem accesses_law_fails : ¬ ∀ (bound : UInt32) (predictionId : ℕ) (calls : List Call),
    (∀ c ∈ calls, ∀ id, c ≠ .getPrediction (some id)) →
    ∃ s, Reached ⟨fun _ _ _ => 0, .faults⟩ (fun _ _ => True) bound predictionId calls s := by
  intro h
  obtain ⟨s, hs⟩ := h 5 7 [.putc 97, .interface true, .putc 98, .interface true] (by simp)
  have hrun := Runs.run_iff_foldlM.mp hs
  cases hrun

end WordModel.BoundedCTModel
