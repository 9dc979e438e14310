import WordModel.BoundedCTModel.Callbacks

/-! How the containers of the model fit each other, through a settlement, through the
entry of a new word and through a prediction. -/

namespace WordModel.BoundedCTModel

open Checked ContextTree

variable (p : Platform)

/-- The containers fit, except that the root may not know the newest words yet. -/
structure Fitting (m : BoundedCTModel) : Prop where
  sound : m.ct.Sound
  numbered : m.ct.Numbered
  maxContexts : m.ct.maxContexts = 20
  words_length : m.words.length = m.tokenNumber
  wordMap : ∀ w n, m.wordMap.lookup w = some n ↔ m.words[n]? = some w
  prediction_lt : m.prediction < m.tokenNumber
  positive : 0 < m.rootWeights.length
  known : m.rootWeights.length ≤ m.tokenNumber
  weights_length : m.weights.length + 1 = m.ct.tree.length
  keys : ∀ (v : ℕ) ws, m.weights[v]? = some ws → ∀ k ∈ ws, k < m.tokenNumber
  dataMap : ∀ n ∈ m.ct.tokens.dataMap, n < m.tokenNumber
  context : ∀ n ∈ m.predictionContext, n < m.tokenNumber
  context_length : m.predictionContext.length ≤ m.bound.toNat

lemma interfaceToken_ne_nil : interfaceToken ≠ ([] : Word) := by decide

lemma fresh_fitting (bound : UInt32) (predictionId : ℕ) : Fitting (fresh bound predictionId) where
  sound := fresh_sound [] (by decide)
  numbered := fresh_numbered [] 20
  maxContexts := rfl
  words_length := rfl
  wordMap w n := by
    have hne := interfaceToken_ne_nil
    simp only [fresh]
    by_cases hi : w = interfaceToken
    · subst hi
      rw [AList.lookup_insert]
      rcases n with _ | _ | n
      · simp [hne]
      · simp
      · simp
    · rw [AList.lookup_insert_ne hi]
      by_cases he : w = []
      · subst he
        rw [AList.lookup_insert]
        rcases n with _ | _ | n
        · simp
        · simp [hne]
        · simp
      · rw [AList.lookup_insert_ne he]
        rcases n with _ | _ | n
        · simp [eq_comm, he]
        · simp [eq_comm, hi]
        · simp
  prediction_lt := by simp [fresh]
  positive := by simp [fresh]
  known := by simp [fresh]
  weights_length := rfl
  keys := by simp [fresh]
  dataMap := by simp [fresh, ContextTree.fresh]
  context := by simp [fresh]
  context_length := by simp [fresh]

def request (isRegret : Bool) (contextId : ℕ) (depth : ℤ) : Request ℕ :=
  if isRegret then .regret contextId depth else .reinforce contextId depth

inductive Fed (m : BoundedCTModel) (isRegret : Bool) (contextId : ℕ) (depth : ℤ) :
    BoundedCTModel → Prop
  | rejected : contextId ∉ m.ct.activeIds → Fed m isRegret contextId depth m
  | settled {con path members} : contextId ∈ m.ct.activeIds →
      m.ct.contexts[contextId]? = some con → Recorded m.ct.tree con path →
      Charged m.toMembers members (feedback isRegret)
        (path ++ List.range' m.ct.tree.length (newTokens con path.length depth).length)
        (newTokens con path.length depth).length →
      Fed m isRegret contextId depth
        { members with ct := settled p.template m.ct contextId con path depth }

def Chargeable (m : BoundedCTModel) : Prop :=
  p.overrun = .dropped ∨ m.prediction < m.rootWeights.length

lemma serveTree_eq (m : BoundedCTModel) (isRegret : Bool) (contextId : ℕ) (depth : ℤ) :
    ∃ push, Pushes push isRegret ∧ serveTree p m (request isRegret contextId depth) = (do
      let (t, calls) ← settle p.template push isRegret m.ct contextId depth
      let (ct, members) ← deliver (visitor p.overrun) contextId (t, m.toMembers) calls
      return { members with ct := ct }) := by
  cases isRegret with
  | true =>
    refine ⟨.pushRegret, rfl, ?_⟩
    simp only [serveTree, request, serve, regret, ↓reduceIte]
    cases settle p.template .pushRegret true m.ct contextId depth <;> rfl
  | false =>
    refine ⟨.pushReinforce, rfl, ?_⟩
    simp only [serveTree, request, serve, reinforce, Bool.false_eq_true, ↓reduceIte]
    cases settle p.template .pushReinforce false m.ct contextId depth <;> rfl

lemma serveTree_cases {m : BoundedCTModel} (h : Fitting m) (isRegret : Bool) (contextId : ℕ)
    (depth : ℤ) :
    ((contextId ≠ 20 ∧ (contextId ∈ m.ct.activeIds → Chargeable p m)) ∧
      ∃ m', serveTree p m (request isRegret contextId depth) = .ok m' ∧
        Fed p m isRegret contextId depth m') ∨
    (¬ (contextId ≠ 20 ∧ (contextId ∈ m.ct.activeIds → Chargeable p m)) ∧
      ∃ e, serveTree p m (request isRegret contextId depth) = .error e) := by
  obtain ⟨push, hpush, heq⟩ := serveTree_eq p m isRegret contextId depth
  rw [heq]
  have hw := h.weights_length
  rcases h.sound.settle_cases p.template push isRegret contextId depth with
    ⟨hn, hne, he⟩ | ⟨rfl, he⟩ | ⟨con, path, ha, hc, hr, he⟩
  · rw [h.maxContexts] at hne
    exact Or.inl ⟨⟨hne, fun ha => (hn ha).elim⟩, m, by rw [he]; rfl, .rejected hn⟩
  · refine Or.inr ⟨fun hh => hh.1 h.maxContexts, _, by rw [he]; rfl⟩
  · have hne : contextId ≠ 20 := by
      have := h.sound.pooled.active_lt ha
      have := h.maxContexts
      omega
    have hget : (settled p.template m.ct contextId con path depth).contexts[contextId]? =
        some { con with leaf := if newTokens con path.length depth = [] then con.leaf
          else m.ct.tree.length + ((newTokens con path.length depth).length - 1) } := by
      have hlt := (List.getElem?_eq_some_iff.mp hc).1
      simp [settled, deactivateContext, hlt]
    have hhead := hr.rooted
    have hmem : rootNode ∈ path := List.mem_of_head? hhead
    have hcalls : deliver (visitor p.overrun) contextId
        (settled p.template m.ct contextId con path depth, m.toMembers)
        (settleCalls push isRegret path m.ct.vertexNumber
          (newTokens con path.length depth).length) =
        (visitAll (visitor p.overrun) (settleCalls push isRegret path (m.weights.length + 1)
          (newTokens con path.length depth).length) (m.toMembers, con.data) >>= fun r =>
            return ((settled p.template m.ct contextId con path depth).setData contextId r.2,
              r.1)) := by
      rw [deliver_eq _ hget, h.sound.vertexNumber, ← hw]
    rw [he, ok_bind]
    dsimp only
    rw [hcalls]
    by_cases hroot : Chargeable p m
    · obtain ⟨members, hvisit, hcharged⟩ := visitAll_settleCalls p.overrun hpush hr.sorted
        (m := m.toMembers) (fun v hv => by
          have := hr.valid v hv
          omega) (fun _ => hroot) con.data (newTokens con path.length depth).length
      rw [hw] at hcharged
      refine Or.inl ⟨⟨hne, fun _ => hroot⟩, _, ?_, .settled ha hc hr hcharged⟩
      rw [hvisit]
      simp only [ok_bind, pure_eq_ok, Except.ok.injEq]
      congr 1
      have hself := setData_self hget
      exact hself
    · refine Or.inr ⟨fun hh => hroot (hh.2 ha), ?_⟩
      obtain ⟨hdropped, hlt⟩ := not_or.mp hroot
      have hfaults : p.overrun = .faults := by
        cases ho : p.overrun with
        | faults => rfl
        | dropped => exact (hdropped ho).elim
      have hfault := visitAll_settleCalls_fault hpush (m := m.toMembers) hhead (not_lt.mp hlt)
        con.data (m.weights.length + 1) (newTokens con path.length depth).length
      rw [hfaults, hfault]
      exact ⟨_, rfl⟩

lemma Fed.of_ok {m m' : BoundedCTModel} (h : Fitting m) {isRegret : Bool} {contextId : ℕ}
    {depth : ℤ} (he : serveTree p m (request isRegret contextId depth) = .ok m') :
    Fed p m isRegret contextId depth m' := by
  rcases serveTree_cases p h isRegret contextId depth with ⟨_, m₁, he₁, hf⟩ | ⟨_, e, he₁⟩
  · rw [he, Except.ok.injEq] at he₁
    exact he₁ ▸ hf
  · rw [he] at he₁
    cases he₁

lemma Fed.same {m m' : BoundedCTModel} {isRegret : Bool} {contextId : ℕ} {depth : ℤ}
    (h : Fed p m isRegret contextId depth m') :
    m' = { m with weights := m'.weights, rootWeights := m'.rootWeights, ct := m'.ct } ∧
      m'.rootWeights.length = m.rootWeights.length ∧ m'.ct.tokens = m.ct.tokens := by
  cases h with
  | rejected => exact ⟨rfl, rfl, rfl⟩
  | settled _ _ _ hc =>
    refine ⟨?_, hc.rootLength, rfl⟩
    rw [hc.same]

lemma Fed.fitting {m m' : BoundedCTModel} (h : Fitting m) {isRegret : Bool} {contextId : ℕ}
    {depth : ℤ} (hf : Fed p m isRegret contextId depth m') : Fitting m' := by
  cases hf with
  | rejected => exact h
  | @settled con path members ha hc hr hcharged =>
    have hs := hcharged.same
    have hroot := hcharged.rootLength
    have hl := settled_length p.template hr contextId depth
    have hw := h.weights_length
    refine ⟨settled_sound p.template h.sound ha hr depth,
      settled_numbered p.template h.sound h.numbered ha hc hr depth, h.maxContexts, ?_, ?_, ?_, ?_,
      ?_, ?_, ?_, ?_, ?_, ?_⟩
    · rw [hs]
      exact h.words_length
    · rw [hs]
      exact h.wordMap
    · rw [hs]
      exact h.prediction_lt
    · dsimp only
      rw [hroot]
      exact h.positive
    · rw [hs] at hroot ⊢
      dsimp only at hroot ⊢
      rw [hroot]
      exact h.known
    · change members.weights.length + 1 =
        (ContextTree.settled p.template m.ct contextId con path depth).tree.length
      rw [hl, hcharged.length]
      omega
    · intro v ws hget k hk
      have htoken : members.tokenNumber = m.tokenNumber := by rw [hs]
      dsimp only at hget ⊢
      rw [htoken]
      rcases hcharged.keys v ws k hget hk with rfl | ⟨ws₀, hget₀, hk₀⟩
      · exact h.prediction_lt
      · exact h.keys v ws₀ hget₀ k hk₀
    · rw [hs]
      exact h.dataMap
    · rw [hs]
      exact h.context
    · rw [hs]
      exact h.context_length

end WordModel.BoundedCTModel
