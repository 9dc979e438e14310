import WordModel.ContextTree.Numbering

/-! Feedback that follows its prediction at once: which vertices it is about, and where
the vertices it adds hang. -/

namespace WordModel.ContextTree

open Checked Follow

variable {DataType ContextData : Type}

def Callback.visits : Callback → Option ℕ
  | .pushPredict node _ => some node
  | _ => none

lemma predictCalls_visits [DecidableEq DataType] (t : ContextTree DataType ContextData)
    (dataFrag : List DataType) :
    (t.predictCalls dataFrag).filterMap Callback.visits = t.visited dataFrag := by
  have hpush (vs : List ℕ) (i : ℕ) : (vs.mapIdx (fun k v => Callback.pushPredict v (i + k))).filterMap
      Callback.visits = vs := by
    induction vs generalizing i with
    | nil => rfl
    | cons v vs ih =>
      have hh := ih (i + 1)
      simp only [Nat.add_assoc, Nat.add_comm 1] at hh
      simp [Callback.visits, hh]
  have hh := hpush (t.visited dataFrag) 0
  simp only [Nat.zero_add] at hh
  simp [predictCalls, Callback.visits, List.filterMap_cons, hh]

/-- Settling makes one call for each of `visited`, in this order, and then appends new
vertices one under the other, the first of them under the last of `visited`. -/
def SettlesAlong (tp : Template) (push : ℕ → ℕ → Callback) (isRegret : Bool)
    (t : ContextTree DataType ContextData) (contextId : ℕ) (depth : ℤ) (visited : List ℕ) : Prop :=
  ∃ (t' : ContextTree DataType ContextData) (new : List ℕ), settle tp push isRegret t contextId depth =
      .ok (t', visited.mapIdx (fun k v => push v k) ++
        new.map (fun v => .addNode v visited.length isRegret)) ∧
    new = List.range' t.tree.length new.length ∧
    t'.tree.length = t.tree.length + new.length ∧
    ∀ j u : ℕ, new[j]? = some u → ∀ v, IsChild t'.tree v u ↔
      (visited.getLast?.toList ++ new)[j]? = some v

section

variable (tp : Template) {t : ContextTree DataType ContextData}

lemma chainParent_eq (n last count j : ℕ) (hj : j < count) (v : ℕ) :
    (last :: List.range' n count)[j]? = some v ↔ v = chainParent n last j := by
  cases j with
  | zero => simp [chainParent, eq_comm]
  | succ j =>
    rw [List.getElem?_cons_succ, List.getElem?_range' (by omega)]
    simp [chainParent, eq_comm]

lemma isChild_addChain_iff {g : Graph} (hg : g.Ordered) {last : ℕ} (hl : last < g.length)
    (tokens : List ℕ) (hfree : ∀ n ∈ tokens.head?, descend g last n = none) {j : ℕ}
    (hj : j < tokens.length) (v : ℕ) :
    IsChild (addChain tp g g.length last tokens) v (g.length + j) ↔
      v = chainParent g.length last j := by
  constructor
  · intro h
    rcases isChild_of_addChain tp hl _ tokens h with hold | ⟨k, _, hu, hv⟩
    · have := (hg.older v _ hold).2
      omega
    · obtain rfl : j = k := by omega
      exact hv
  · rintro rfl
    have hd := descend_addChain_new tp hg hl tokens hfree (List.getElem?_eq_getElem hj)
    exact ((addChain_ordered tp hg hl tokens).isChild_of_descend hd).1

lemma Recorded.settlesAlong (h : t.Sound) {contextId : ℕ} (ha : contextId ∈ t.activeIds)
    {con : Context ContextData} (hc : t.contexts[contextId]? = some con) {path : List ℕ}
    (hr : Recorded t.tree con path) (push : ℕ → ℕ → Callback) (isRegret : Bool) (depth : ℤ)
    (hfree : ∀ n ∈ (newTokens con path.length depth).head?, descend t.tree con.leaf n = none) :
    SettlesAlong tp push isRegret t contextId depth path := by
  have hv := h.pooled.validateId_iff.mpr (Or.inl ha)
  have hsettle := settle_eq tp push isRegret hv h.ordered hc hr depth
  refine ⟨settled tp t contextId con path depth,
    List.range' t.tree.length (newTokens con path.length depth).length, ?_, ?_, ?_, ?_⟩
  · rw [hsettle, settleCalls, h.vertexNumber]
  · simp
  · simpa using settled_length tp hr contextId depth
  · intro j u hu v
    have hj : j < (newTokens con path.length depth).length := by
      have := (List.getElem?_eq_some_iff.mp hu).1
      simpa using this
    obtain rfl : t.tree.length + j = u := by
      rw [List.getElem?_range' hj] at hu
      simpa using hu
    have htree : (settled tp t contextId con path depth).tree =
        addChain tp t.tree t.tree.length con.leaf (newTokens con path.length depth) := by
      simp [settled, deactivateContext, h.vertexNumber]
    rw [htree, isChild_addChain_iff tp h.ordered hr.leaf_lt _ hfree hj, hr.leaf]
    exact (chainParent_eq _ _ _ _ hj v).symm

lemma Recorded.settlesAlong_path (h : t.Sound) {contextId : ℕ} (ha : contextId ∈ t.activeIds)
    {con : Context ContextData} (hc : t.contexts[contextId]? = some con) {path : List ℕ}
    (hr : Recorded t.tree con path) {push : ℕ → ℕ → Callback} {isRegret : Bool} {depth : ℤ}
    {visited : List ℕ} (hs : SettlesAlong tp push isRegret t contextId depth visited)
    (hsize : con.additionSize = 0) : visited.length ≤ path.length := by
  obtain ⟨t', new, he, _⟩ := hs
  have hv := h.pooled.validateId_iff.mpr (Or.inl ha)
  rw [settle_eq tp push isRegret hv h.ordered hc hr depth, Except.ok.injEq, Prod.mk.injEq] at he
  have hlen := congrArg List.length he.2
  have hnew := hr.newTokens_length depth
  have hle := additionRounds_le path.length depth con.additionSize
  simp only [settleCalls, List.length_append, List.length_mapIdx, List.length_map,
    List.length_range'] at hlen
  omega

end

variable [DecidableEq DataType] (tp : Template) {M : Type} (visitor : Visitor M ContextData)

lemma Predicted.delivered {t t' : ContextTree DataType ContextData} {dataFrag : List DataType}
    {contextId : ℕ} {con : Context ContextData} (h : t.Sound)
    (hp : Predicted t t' dataFrag contextId con) {m : M} {calls : List Callback}
    {s : ContextTree DataType ContextData × M}
    (hd : deliver visitor contextId (t', m) calls = .ok s) :
    s.1.Sound ∧ s.1.tree = t.tree ∧ contextId ∈ s.1.activeIds ∧ ∃ data,
      s.1.contexts[contextId]? = some { con with data := data } := by
  have hc := hp.getElem? h
  have ht := hp.sound h
  have htree : t'.tree = t.tree := by rw [hp.same]
  have hactive : contextId ∈ t'.activeIds := by
    obtain ⟨_, active, _, ha, _⟩ := hp.kept
    simp [ha]
  rw [deliver_eq visitor hc] at hd
  obtain ⟨⟨m', data⟩, _, he⟩ := bind_eq_ok.mp hd
  obtain rfl := Except.ok.inj he
  exact ⟨ht.setData contextId data, htree, hactive, data, by simp [setData_getElem?, hc]⟩

lemma settlePath_of_empty {t : ContextTree DataType ContextData} {dataFrag : List DataType}
    (h : dataFrag = [] ∨ t.matched dataFrag = none) :
    t.settlePath dataFrag = t.visited dataFrag := by
  rw [settlePath]
  rcases h with rfl | h
  · simp [matched, visited, walk]
  · rw [if_pos h]

lemma feedback_iff {t : ContextTree DataType ContextData} (h : t.Sound) (hn : t.Numbered)
    (dataFrag : List DataType) {contextId : ℕ} {t' : ContextTree DataType ContextData}
    {calls : List Callback} (hp : t.predict dataFrag = .ok (contextId, t', calls)) {m : M}
    {s : ContextTree DataType ContextData × M}
    (hd : deliver visitor contextId (t', m) calls = .ok s) (push : ℕ → ℕ → Callback)
    (isRegret : Bool) (depth : ℤ) :
    SettlesAlong tp push isRegret s.1 contextId depth (calls.filterMap Callback.visits) ↔
      dataFrag = [] ∨ t.matched dataFrag = none := by
  obtain ⟨_, con, _, he, hspec⟩ := h.predict_spec dataFrag
  rw [hp, Except.ok.injEq, Prod.mk.injEq, Prod.mk.injEq] at he
  obtain ⟨rfl, rfl, rfl⟩ := he
  rw [predictCalls_visits]
  obtain ⟨hs, htree, ha, data, hc⟩ := hspec.delivered visitor h hd
  have hr : Recorded s.1.tree { con with data := data } (t.settlePath dataFrag) :=
    htree ▸ (hspec.recorded h).of_data data
  constructor
  · intro hlaw
    by_contra hno
    obtain ⟨hne, hm⟩ := not_or.mp hno
    obtain ⟨u, hu⟩ := Option.ne_none_iff_exists'.mp hm
    have hle := hr.settlesAlong_path tp hs ha hc hlaw (hspec.reached u hu).2.1
    have hlen : ¬ (t.visited dataFrag).length ≤ dataFrag.reverse.length := by
      rw [visited, ← follow_eq_none_iff]
      exact hm
    rw [settlePath, if_neg hm, List.length_singleton] at hle
    rw [List.length_reverse] at hlen
    have := List.length_pos_of_ne_nil hne
    omega
  · intro hcase
    rw [← settlePath_of_empty hcase]
    refine hr.settlesAlong tp hs ha hc push isRegret depth ?_
    rw [htree]
    rcases hcase with rfl | hm
    · have hsize := (hspec.reached t.root rfl).2.1
      have hzero : newTokens { con with data := data } (t.settlePath []).length depth = [] := by
        have hlen := hr.newTokens_length depth
        have hle := additionRounds_le (t.settlePath []).length depth con.additionSize
        exact List.length_eq_zero_iff.mp (by simp only at hlen; omega)
      simp [hzero]
    · exact hspec.free h hn hm depth

theorem feedback_law (data : ContextData) (maxContexts : ℕ) (hM : 1 ≤ maxContexts) (m : M)
    (requests : List (Request DataType)) (s : ContextTree DataType ContextData × M)
    (h : Reached tp visitor (fun _ _ => True) data maxContexts m requests s)
    (dataFrag : List DataType) (contextId : ℕ) (t : ContextTree DataType ContextData)
    (calls : List Callback) (hp : s.1.predict dataFrag = .ok (contextId, t, calls))
    (s' : ContextTree DataType ContextData × M)
    (hd : deliver visitor contextId (t, s.2) calls = .ok s') (depth : ℤ) :
    (SettlesAlong tp .pushRegret true s'.1 contextId depth (calls.filterMap Callback.visits) ↔
      dataFrag = [] ∨ s.1.matched dataFrag = none) ∧
    (SettlesAlong tp .pushReinforce false s'.1 contextId depth (calls.filterMap Callback.visits) ↔
      dataFrag = [] ∨ s.1.matched dataFrag = none) := by
  have hs := (h.sound hM).1
  have hn := h.numbered hM
  exact ⟨feedback_iff tp visitor hs hn dataFrag hp hd .pushRegret true depth,
    feedback_iff tp visitor hs hn dataFrag hp hd .pushReinforce false depth⟩

theorem feedback_law_partly : ∃ (s s' : ContextTree ℕ Unit × Unit),
    Reached (.ofDefault fun _ _ _ => 0) .silent (fun _ _ => True) () 4 ()
      [.predict [7], .reinforce 0 5, .predict [8, 7], .reinforce 1 5] s ∧
    SettlesAlong (.ofDefault fun _ _ _ => 0) .pushRegret true s'.1 2 5 [0, 1, 2] := by
  have h : Reached (.ofDefault fun _ _ _ => 0) .silent (fun _ _ => True) () 4 ()
      [.predict [7], .reinforce 0 5, .predict [8, 7], .reinforce 1 5]
      (_ : ContextTree ℕ Unit × Unit) :=
    .cons trivial rfl (.cons trivial rfl (.cons trivial rfl (.cons trivial rfl .nil)))
  exact ⟨_, _, h, (feedback_law _ .silent () 4 (by decide) () _ _ h [9, 8, 7] 2 _ _ rfl _ rfl
    5).1.mpr (Or.inr rfl)⟩

theorem feedback_law_fails : ¬ ∀ (requests : List (Request ℕ)) (s s' : ContextTree ℕ Unit × Unit)
    (dataFrag : List ℕ) (contextId : ℕ) (t : ContextTree ℕ Unit) (calls : List Callback) (depth : ℤ),
    Reached (.ofDefault fun _ _ _ => 0) .silent (fun _ _ => True) () 2 () requests s →
    s.1.predict dataFrag = .ok (contextId, t, calls) →
    deliver .silent contextId (t, s.2) calls = .ok s' →
    SettlesAlong (.ofDefault fun _ _ _ => 0) .pushRegret true s'.1 contextId depth
      (calls.filterMap Callback.visits) := by
  intro h
  have hrun : Reached (.ofDefault fun _ _ _ => 0) .silent (fun _ _ => True) () 2 ()
      [.predict [7], .reinforce 0 5] _ :=
    .cons trivial rfl (.cons trivial rfl .nil)
  have hs := (hrun.sound (by decide)).1
  have hn := hrun.numbered (by decide)
  have hlaw := h _ _ _ [7] 1 _ _ 5 hrun rfl rfl
  rcases (feedback_iff _ .silent hs hn [7] rfl rfl _ _ 5).mp hlaw with he | he
  · cases he
  · cases he

end WordModel.ContextTree
