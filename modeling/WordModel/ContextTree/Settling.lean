import WordModel.ContextTree.Recording
import WordModel.ContextTree.Pool

/-! Settling a prediction: the walk along the recorded path up to the leaf, the chain of
vertices appended there, and the tree, pool and contexts that result. -/

namespace WordModel.ContextTree

open Checked Follow

variable {DataType ContextData : Type} (tp : Template)

/-- The vertices that settling the context will walk over are `path`. -/
structure Recorded (g : Graph) (con : Context ContextData) (path : List ℕ) : Prop where
  ids : path <+: con.ids
  rooted : path.head? = some 0
  sorted : path.Pairwise (· < ·)
  valid : ∀ v ∈ path, v < g.length
  leaf : path.getLast? = some con.leaf
  room : path.length + con.additionSize ≤ con.path.length

namespace Recorded

variable {g : Graph} {con : Context ContextData} {path : List ℕ} (h : Recorded g con path)

include h

lemma leaf_lt : con.leaf < g.length := h.valid _ (List.mem_of_getLast? h.leaf)

lemma length_pos : 0 < path.length := by
  have hl := h.leaf
  cases path with
  | nil => cases hl
  | cons => simp

lemma mono {g' : Graph} (hl : g.length ≤ g'.length) : Recorded g' con path :=
  { h with valid := fun v hv => (h.valid v hv).trans_le hl }

lemma unique {path' : List ℕ} (h' : Recorded g con path') : path = path' := by
  have key {p q : List ℕ} (hp : Recorded g con p) (hq : Recorded g con q) (hpq : p <+: q) :
      p = q := by
    obtain ⟨r, rfl⟩ := hpq
    cases r with
    | nil => simp
    | cons v r =>
      have hm := List.mem_of_getLast? hp.leaf
      have hm' : con.leaf ∈ v :: r := by
        have hl := hq.leaf
        rw [List.getLast?_append_of_ne_nil _ (by simp)] at hl
        exact List.mem_of_getLast? hl
      have hlt := (List.pairwise_append.mp hq.sorted).2.2 _ hm _ hm'
      omega
  rcases List.prefix_or_prefix_of_prefix h.ids h'.ids with hp | hp
  · exact key h h' hp
  · exact (key h' h hp).symm

end Recorded

lemma settleWalk_spec (push : ℕ → ℕ → Callback) (leafId index : ℕ) (path : List ℕ)
    (entries : List VertexProperty) (hp : path <+: entries.map (·.id))
    (hs : path.Pairwise (· < ·)) (hl : path.getLast? = some leafId) :
    settleWalk push leafId index entries =
      .ok (path.mapIdx (fun k v => push v (index + k)), index + (path.length - 1)) := by
  induction path generalizing index entries with
  | nil => cases hl
  | cons v path ih =>
    cases entries with
    | nil => simp at hp
    | cons e entries =>
      rw [List.map_cons, List.cons_prefix_cons] at hp
      obtain ⟨rfl, hp⟩ := hp
      cases path with
      | nil =>
        obtain rfl : e.id = leafId := by simpa using hl
        simp [settleWalk]
      | cons w path =>
        have hl' : (w :: path).getLast? = some leafId := by simpa using hl
        have hne : e.id ≠ leafId := by
          have := List.rel_of_pairwise_cons hs (List.mem_of_getLast? hl')
          omega
        have hh := ih (index + 1) entries hp (List.Pairwise.of_cons hs) hl'
        simp only [settleWalk, hne, ne_eq, not_false_eq_true, ↓reduceIte, hh, ok_bind, pure_eq_ok]
        simp only [List.mapIdx_cons, List.length_cons]
        congr 2
        · simp [Nat.add_comm, Nat.add_left_comm]
        · omega

lemma Recorded.settleWalk_eq {g : Graph} {con : Context ContextData} {path : List ℕ}
    (h : Recorded g con path) (hg : g.Ordered) (push : ℕ → ℕ → Callback) :
    settleWalk push (g.node con.leaf).id 0 con.path =
      .ok (path.mapIdx (fun k v => push v k), path.length - 1) := by
  have hwalk := settleWalk_spec push con.leaf 0 path con.path h.ids h.sorted h.leaf
  simp only [Nat.zero_add] at hwalk
  rw [hg.id_eq _ h.leaf_lt, hwalk]

lemma addNodesLoop_spec (entries : List VertexProperty) (index : ℕ) (regret : Bool)
    (rounds i : ℕ) (g : Graph) (n last : ℕ) (hi : i + rounds ≤ entries.length) :
    let tokens := (entries.map (·.token)).drop i
    addNodesLoop tp entries index regret rounds i g n last =
      .ok (addChain tp g n last (tokens.take rounds), n + rounds,
        (if rounds = 0 then last else (addChain tp g n last (tokens.take (rounds - 1))).length),
        (List.range' n rounds).map (fun v => .addNode v index regret)) := by
  induction rounds generalizing i g n last with
  | zero => simp [addNodesLoop, addChain]
  | succ rounds ih =>
    have hget : entries[i]? = some entries[i] := List.getElem?_eq_getElem (by omega)
    have hdrop : (entries.map (·.token)).drop i =
        entries[i].token :: (entries.map (·.token)).drop (i + 1) := by
      rw [List.drop_eq_getElem_cons (by simp; omega), List.getElem_map]
    rw [addNodesLoop, fetch_of_getElem? hget, ok_bind, ih _ _ _ _ (by omega)]
    simp only [ok_bind, pure_eq_ok, hdrop, List.take_succ_cons, addChain, List.range'_succ,
      Nat.add_sub_cancel, Nat.succ_ne_zero, ↓reduceIte, List.map_cons]
    congr 2
    refine Prod.ext (by simp; omega) (Prod.ext ?_ rfl)
    cases rounds with
    | zero => simp [addChain]
    | succ m => simp [addChain]

def newTokens (con : Context ContextData) (index : ℕ) (depth : ℤ) : List ℕ :=
  (con.additions.drop index).take (additionRounds index depth con.additionSize)

lemma additionRounds_le (index : ℕ) (depth : ℤ) (additionSize : ℕ) :
    additionRounds index depth additionSize ≤ additionSize := by
  rw [additionRounds]
  split <;> omega

lemma Recorded.newTokens_length {g : Graph} {con : Context ContextData} {path : List ℕ}
    (h : Recorded g con path) (depth : ℤ) :
    (newTokens con path.length depth).length =
      additionRounds path.length depth con.additionSize := by
  have := h.room
  have := additionRounds_le path.length depth con.additionSize
  simp only [newTokens, List.length_take, List.length_drop, Context.additions_length]
  omega

def settled (t : ContextTree DataType ContextData) (contextId : ℕ) (con : Context ContextData)
    (path : List ℕ) (depth : ℤ) : ContextTree DataType ContextData :=
  let tokens := newTokens con path.length depth
  ({ t with
      tree := addChain tp t.tree t.vertexNumber con.leaf tokens
      vertexNumber := t.vertexNumber + tokens.length
      contexts := t.contexts.set contextId
        { con with leaf := if tokens = [] then con.leaf
            else t.tree.length + (tokens.length - 1) } }).deactivateContext contextId

lemma settled_length {t : ContextTree DataType ContextData} {con : Context ContextData}
    {path : List ℕ} (hr : Recorded t.tree con path) (contextId : ℕ) (depth : ℤ) :
    (settled tp t contextId con path depth).tree.length =
      t.tree.length + (newTokens con path.length depth).length :=
  addChain_length tp hr.leaf_lt _ _

def settleCalls (push : ℕ → ℕ → Callback) (isRegret : Bool) (path : List ℕ) (first count : ℕ) :
    List Callback :=
  path.mapIdx (fun k v => push v k) ++
    (List.range' first count).map (fun v => .addNode v path.length isRegret)

lemma Recorded.conAddNodes_eq {t : ContextTree DataType ContextData} {con : Context ContextData}
    {path : List ℕ} (h : Recorded t.tree con path) (depth : ℤ) (isRegret : Bool) :
    let tokens := newTokens con path.length depth
    conAddNodes tp t con path.length depth isRegret =
      .ok (addChain tp t.tree t.vertexNumber con.leaf tokens, t.vertexNumber + tokens.length,
        (if tokens = [] then con.leaf else t.tree.length + (tokens.length - 1)),
        (List.range' t.vertexNumber tokens.length).map
          (fun v => .addNode v path.length isRegret)) := by
  have hle := additionRounds_le path.length depth con.additionSize
  have hlen := h.newTokens_length depth
  have hroom := h.room
  rw [conAddNodes]
  rw [newTokens] at hlen ⊢
  generalize additionRounds path.length depth con.additionSize = rounds at hle hlen ⊢
  have hempty : (con.additions.drop path.length).take rounds = [] ↔ rounds = 0 := by
    rw [← List.length_eq_zero_iff, hlen]
  have hleaf : (addChain tp t.tree t.vertexNumber con.leaf
      ((con.additions.drop path.length).take (rounds - 1))).length =
      t.tree.length + (rounds - 1) := by
    rw [addChain_length tp h.leaf_lt, List.length_take, List.length_drop,
      Context.additions_length]
    omega
  rw [addNodesLoop_spec tp con.path path.length isRegret rounds path.length t.tree
    t.vertexNumber con.leaf (by omega)]
  simp only [hlen, hempty, ← hleaf]
  rw [Context.additions]

lemma settle_eq (push : ℕ → ℕ → Callback) (isRegret : Bool)
    {t : ContextTree DataType ContextData} {contextId : ℕ} (hv : t.validateId contextId = true)
    (hg : t.tree.Ordered) {con : Context ContextData}
    (hc : t.contexts[contextId]? = some con) {path : List ℕ}
    (hr : Recorded t.tree con path) (depth : ℤ) :
    settle tp push isRegret t contextId depth =
      .ok (settled tp t contextId con path depth,
        settleCalls push isRegret path t.vertexNumber (newTokens con path.length depth).length) := by
  have hadd := hr.conAddNodes_eq tp depth isRegret
  rw [settle, if_pos hv, fetch_of_getElem? hc, ok_bind, hr.settleWalk_eq hg, ok_bind]
  dsimp only
  rw [Nat.sub_add_cancel hr.length_pos, hadd, ok_bind]
  simp only [pure_eq_ok, settled, settleCalls]

end WordModel.ContextTree
