import WordModel.ContextTree.Requests

/-! A vertex finds its children by their tokens, the first of a token before the others, be
they in its out-edges or in its subtree. -/

namespace WordModel.ContextTree

open Checked

variable {DataType ContextData : Type} (tp : Template)

structure Insertion where
  parent : ℕ
  token : ℕ
  child : ℕ
  deriving DecidableEq

structure Addition (ContextData : Type) where
  con : Context ContextData
  index : ℕ
  depth : ℤ
  regret : Bool

def addNodes (t : ContextTree DataType ContextData) (a : Addition ContextData) :
    Exec Container (ContextTree DataType ContextData) := do
  let (g, n, _, _) ← conAddNodes tp t a.con a.index a.depth a.regret
  return { t with tree := g, vertexNumber := n }

def insertedLoop (path : List VertexProperty) : ℕ → ℕ → ℕ → ℕ → List Insertion
  | 0, _, _, _ => []
  | rounds + 1, i, v, last =>
    ⟨last, (path.getD i {}).token, v⟩ :: insertedLoop path rounds (i + 1) (v + 1) v

/-- The children that one call of `con_add_nodes` inserts, in order. -/
def inserted (t : ContextTree DataType ContextData) (a : Addition ContextData) : List Insertion :=
  insertedLoop a.con.path (additionRounds a.index a.depth a.con.additionSize) a.index
    t.tree.length a.con.leaf

def firstChild (log : List Insertion) (v token : ℕ) : Option ℕ :=
  (log.find? (fun i => i.parent = v ∧ i.token = token)).map Insertion.child

abbrev Grown (data : ContextData) (maxContexts : ℕ) (additions : List (Addition ContextData))
    (s : ContextTree DataType ContextData × List Insertion) : Prop :=
  Runs.Run (Runs.traced (addNodes tp) (fun t a _ => inserted t a))
    (fun s a => a.con.leaf < s.1.tree.length) (fresh data maxContexts, []) additions s

lemma firstChild_concat (log : List Insertion) (i : Insertion) (v token : ℕ) :
    firstChild (log ++ [i]) v token =
      (firstChild log v token).or
        (if i.parent = v ∧ i.token = token then some i.child else none) := by
  rw [firstChild, firstChild, List.find?_append]
  cases log.find? (fun i => i.parent = v ∧ i.token = token) with
  | some j => rfl
  | none =>
    by_cases h : i.parent = v ∧ i.token = token
    · simp [h]
    · simp [h]

lemma firstChild_eq_none {log : List Insertion} {v token : ℕ} :
    firstChild log v token = none ↔ ∀ i ∈ log, ¬ (i.parent = v ∧ i.token = token) := by
  simp [firstChild]

structure Filed (g : Graph) (log : List Insertion) : Prop where
  ordered : g.Ordered
  descend : ∀ v token, descend g v token = firstChild log v token

lemma fresh_filed (data : ContextData) (maxContexts : ℕ) :
    Filed (fresh data maxContexts : ContextTree DataType ContextData).tree [] where
  ordered := fresh_ordered data maxContexts
  descend v token := by
    cases v <;> rfl

lemma Filed.addChild {g : Graph} {log : List Insertion} (h : Filed g log) {last : ℕ}
    (hl : last < g.length) (token : ℕ) :
    Filed (addChild tp g g.length last token) (log ++ [⟨last, token, g.length⟩]) where
  ordered := addChild_ordered tp h.ordered hl token
  descend v t := by
    rw [descend_addChild tp h.ordered hl, firstChild_concat, ← h.descend]
    by_cases hv : v = last
    · simp [hv]
    · simp [hv, Ne.symm hv]

lemma Filed.addNodesLoop {path : List VertexProperty} {index : ℕ} {regret : Bool} {rounds i : ℕ}
    {g g' : Graph} {log : List Insertion} {last n leaf : ℕ} {calls : List Callback}
    (h : Filed g log) (hl : last < g.length)
    (he : addNodesLoop tp path index regret rounds i g g.length last = .ok (g', n, leaf, calls)) :
    Filed g' (log ++ insertedLoop path rounds i g.length last) ∧ n = g'.length := by
  induction rounds generalizing i g log last g' n leaf calls with
  | zero =>
    rw [ContextTree.addNodesLoop, Except.ok.injEq, Prod.mk.injEq, Prod.mk.injEq] at he
    obtain ⟨rfl, rfl, _⟩ := he
    simpa [insertedLoop] using h
  | succ rounds ih =>
    rw [ContextTree.addNodesLoop] at he
    obtain ⟨p, hp, he⟩ := bind_eq_ok.mp he
    obtain ⟨⟨g₁, n₁, leaf₁, calls₁⟩, hrest, he⟩ := bind_eq_ok.mp he
    have hpair := Except.ok.inj he
    rw [Prod.mk.injEq, Prod.mk.injEq] at hpair
    obtain ⟨rfl, rfl, _⟩ := hpair
    have hget : path.getD i {} = p := by
      rw [fetch] at hp
      split at hp
      · rename_i x hx
        rw [List.getD_eq_getElem?_getD, hx]
        exact Except.ok.inj hp
      · cases hp
    have hlen := (addChild_node tp hl g.length p.token).1
    rw [← hlen] at hrest
    obtain ⟨hfiled, hn⟩ := ih (h.addChild tp hl p.token) (by omega) hrest
    rw [insertedLoop, hget, ← List.singleton_append, ← List.append_assoc, ← hlen]
    exact ⟨hfiled, hn⟩

lemma Grown.filed {data : ContextData} {maxContexts : ℕ} {additions : List (Addition ContextData)}
    {s : ContextTree DataType ContextData × List Insertion}
    (h : Grown tp data maxContexts additions s) :
    Filed s.1.tree s.2 ∧ s.1.vertexNumber = s.1.tree.length := by
  refine Runs.Run.traced_invariant
    (P := fun s : ContextTree DataType ContextData × List Insertion =>
      Filed s.1.tree s.2 ∧ s.1.vertexNumber = s.1.tree.length) h ?_
    ⟨fresh_filed data maxContexts, rfl⟩
  rintro t log a t' ⟨hf, hn⟩ hl he
  obtain ⟨⟨g, n, leaf, calls⟩, hloop, he⟩ := bind_eq_ok.mp he
  obtain rfl := Except.ok.inj he
  rw [conAddNodes, hn] at hloop
  exact hf.addNodesLoop tp hl hloop

lemma addNodes_eq {t : ContextTree DataType ContextData} {con : Context ContextData}
    {path : List ℕ} (h : Recorded t.tree con path) (depth : ℤ) (isRegret : Bool) :
    addNodes tp t ⟨con, path.length, depth, isRegret⟩ = .ok { t with
      tree := addChain tp t.tree t.vertexNumber con.leaf (newTokens con path.length depth)
      vertexNumber := t.vertexNumber + (newTokens con path.length depth).length } := by
  have he := h.conAddNodes_eq tp depth isRegret
  dsimp only at he
  rw [addNodes]
  dsimp only
  rw [he]
  rfl

lemma Reached.grown [DecidableEq DataType] {M : Type} {visitor : Visitor M ContextData}
    {guard : ContextTree DataType ContextData × M → Request DataType → Prop}
    {data : ContextData} {maxContexts : ℕ} (hM : 0 < maxContexts) {m : M}
    {requests : List (Request DataType)} {s : ContextTree DataType ContextData × M}
    (h : Reached tp visitor guard data maxContexts m requests s) :
    ∃ (additions : List (Addition ContextData)) (t : ContextTree DataType ContextData)
      (log : List Insertion), Grown tp data maxContexts additions (t, log) ∧
        t.tree = s.1.tree ∧ t.vertexNumber = s.1.vertexNumber := by
  refine (Runs.Run.invariant (P := fun s : ContextTree DataType ContextData × M =>
    s.1.Sound ∧ ∃ (additions : List (Addition ContextData))
      (t : ContextTree DataType ContextData) (log : List Insertion),
        Grown tp data maxContexts additions (t, log) ∧
          t.tree = s.1.tree ∧ t.vertexNumber = s.1.vertexNumber) h ?_
    ⟨fresh_sound data hM, [], _, [], .nil, rfl, rfl⟩).2
  rintro s r s' ⟨hs, additions, t, log, hg, htree, hnumber⟩ _ he
  obtain ⟨t', hserved, hdata⟩ := hs.served tp visitor he
  refine ⟨hdata.sound (hserved.sound hs), ?_⟩
  have hsame : s'.1.tree = t'.tree ∧ s'.1.vertexNumber = t'.vertexNumber := by
    generalize s'.1 = u at hdata
    cases hdata <;> exact ⟨rfl, rfl⟩
  rw [hsame.1, hsame.2]
  cases hserved with
  | predicted hp =>
    rw [hp.same]
    exact ⟨additions, t, log, hg, htree, hnumber⟩
  | rejected => exact ⟨additions, t, log, hg, htree, hnumber⟩
  | @settled _ _ con path depth _ _ _ hr =>
    rw [← htree] at hr
    have hnew := addNodes_eq tp hr depth true
    refine ⟨_, _, _, hg.concat hr.leaf_lt (Runs.traced_eq_ok.mpr ⟨hnew, rfl⟩), ?_, ?_⟩
    · dsimp only
      rw [htree, hnumber]
      rfl
    · dsimp only
      rw [hnumber]
      rfl

theorem insertions_law (data : ContextData) (maxContexts : ℕ)
    (additions : List (Addition ContextData)) (t : ContextTree DataType ContextData)
    (log : List Insertion) (h : Grown tp data maxContexts additions (t, log)) (v token : ℕ) :
    descend t.tree v token = firstChild log v token ∧
      (descend t.tree v token = none ↔ ∀ i ∈ log, ¬ (i.parent = v ∧ i.token = token)) := by
  obtain ⟨hf, _⟩ := h.filed
  have he : descend t.tree v token = firstChild log v token := hf.descend v token
  exact ⟨he, by rw [he, firstChild_eq_none]⟩

theorem insertions_law_split : ∃ (t : ContextTree ℕ Unit) (log : List Insertion),
    Grown ⟨2, by decide, fun _ _ _ => 1⟩ () 1
      [⟨⟨0, [{}, { token := 7 }], 1, ()⟩, 1, 5, true⟩, ⟨⟨0, [{}, { token := 8 }], 1, ()⟩, 1, 5, true⟩,
        ⟨⟨0, [{}, { token := 7 }], 1, ()⟩, 1, 5, false⟩] (t, log) ∧
    (t.tree.node 0).subtree.isSome ∧
    descend t.tree 0 7 = firstChild log 0 7 ∧ firstChild log 0 7 = some 1 := by
  have h : Grown ⟨2, by decide, fun _ _ _ => 1⟩ () 1
      [⟨⟨0, [{}, { token := 7 }], 1, ()⟩, 1, 5, true⟩, ⟨⟨0, [{}, { token := 8 }], 1, ()⟩, 1, 5, true⟩,
        ⟨⟨0, [{}, { token := 7 }], 1, ()⟩, 1, 5, false⟩] (_ : ContextTree ℕ Unit × List Insertion) :=
    .cons (by decide) rfl (.cons (by decide) rfl (.cons (by decide) rfl .nil))
  exact ⟨_, _, h, rfl, (insertions_law _ () 1 _ _ _ h 0 7).1, rfl⟩

end WordModel.ContextTree
