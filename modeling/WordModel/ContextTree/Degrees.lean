import WordModel.ContextTree.Children

/-! The out-edges of the vertices, and what a split leaves of them: its removal loop reads
through the iterator that the loop before has moved to the end. -/

namespace WordModel.ContextTree

open Checked Follow

variable (tp : Template)

-- The split, with the iterator it walks by: `target` is the list of what is still ahead.
structure Split where
  parent : ℕ
  filed : List ℕ
  /-- What is handed to `remove_edge`, and whether it was read past the end. -/
  removed : List (ℕ × Bool)
  deriving DecidableEq

def fileLoop (g : Graph) : List ℕ → Subtree → List ℕ → Subtree × List ℕ × List ℕ
  | [], s, toDelete => (s, toDelete, [])
  | u :: target, s, toDelete =>
    fileLoop g target (s.insertNew (g.node u).token u) (toDelete ++ [u])

def dereference (target : List ℕ) (g : Graph) (v i : ℕ) : ℕ × Bool :=
  match target with
  | [] => (tp.pastEnd g v i, true)
  | u :: _ => (u, false)

def removeLoop (target : List ℕ) (v : ℕ) : ℕ → ℕ → Graph → Graph × List (ℕ × Bool)
  | 0, _, g => (g, [])
  | rounds + 1, i, g =>
    let u := dereference tp target g v i
    let (g, removed) := removeLoop target v rounds (i + 1) (g.removeEdge v u.1)
    (g, u :: removed)

def splitSteps (g : Graph) (v : ℕ) : Graph × Split :=
  let (s, toDelete, target) := fileLoop g (g.node v).outEdges ∅ []
  let (g, removed) := removeLoop tp target v tp.maxDegree 0 (g.setSubtree v s)
  (g, { parent := v, filed := toDelete, removed := removed })

/-- The children that were filed are removed, no iterator being read at its end. -/
def Split.Proper (sp : Split) : Prop :=
  (sp.removed.map Prod.fst).Perm sp.filed ∧ ∀ r ∈ sp.removed, r.2 = false

lemma fileLoop_eq (g : Graph) (target : List ℕ) (s : Subtree) (toDelete : List ℕ) :
    fileLoop g target s toDelete =
      (target.foldl (fun s u => Subtree.insertNew s (g.node u).token u) s, toDelete ++ target,
        []) := by
  induction target generalizing s toDelete with
  | nil => simp [fileLoop]
  | cons u target ih => simp [fileLoop, ih]

lemma removeLoop_fst (v rounds i : ℕ) (g : Graph) :
    (removeLoop tp [] v rounds i g).1 =
      (List.range' i rounds).foldl (fun g i => g.removeEdge v (tp.pastEnd g v i)) g := by
  induction rounds generalizing i g with
  | zero => rfl
  | succ rounds ih => exact ih (i + 1) _

lemma splitSteps_fst (g : Graph) (v : ℕ) : (splitSteps tp g v).1 = splitVertex tp g v := by
  simp only [splitSteps, fileLoop_eq, removeLoop_fst, splitVertex, splitSubtree,
    List.range_eq_range']

lemma not_proper (g : Graph) (v : ℕ) : ¬ (splitSteps tp g v).2.Proper := by
  have htwo := tp.two_le
  obtain ⟨n, hn⟩ : ∃ n, tp.maxDegree = n + 1 := ⟨tp.maxDegree - 1, by omega⟩
  rintro ⟨-, hread⟩
  simp only [splitSteps, fileLoop_eq, hn, removeLoop] at hread
  have hfirst := hread _ (by simp; exact Or.inl rfl)
  cases hfirst

def childSplits (g : Graph) (id last token : ℕ) : List Split :=
  let g := g ++ [{ id := id, token := token }]
  if (g.node last).subtree = none ∧ (g.node last).outEdges.length = tp.maxDegree
    then [(splitSteps tp g last).2] else []

def splitsLoop (path : List VertexProperty) : ℕ → ℕ → Graph → ℕ → ℕ → List Split
  | 0, _, _, _, _ => []
  | rounds + 1, i, g, vertexNumber, last =>
    match path[i]? with
    | some p =>
      childSplits tp g vertexNumber last p.token ++
        splitsLoop path rounds (i + 1) (addChild tp g vertexNumber last p.token)
          (vertexNumber + 1) g.length
    | none => []

def chainSplits (g : Graph) (id last : ℕ) : List ℕ → List Split
  | [] => []
  | token :: tokens => childSplits tp g id last token ++
      chainSplits (addChild tp g id last token) (id + 1) g.length tokens

lemma splitsLoop_eq (path : List VertexProperty) (rounds i : ℕ) (g : Graph) (id last : ℕ) :
    splitsLoop tp path rounds i g id last =
      chainSplits tp g id last (((path.map (·.token)).drop i).take rounds) := by
  induction rounds generalizing i g id last with
  | zero => simp [splitsLoop, chainSplits]
  | succ rounds ih =>
    rw [splitsLoop]
    cases hget : path[i]? with
    | none =>
      rw [List.drop_eq_nil_of_le (by simpa using hget)]
      rfl
    | some p =>
      obtain ⟨hi, rfl⟩ := List.getElem?_eq_some_iff.mp hget
      have hdrop : (path.map (·.token)).drop i = path[i].token :: (path.map (·.token)).drop (i + 1) := by
        rw [List.drop_eq_getElem_cons (by simpa using hi), List.getElem_map]
      rw [hdrop, List.take_succ_cons, chainSplits]
      simp only [ih]

def Graph.Plain (maxDegree : ℕ) (g : Graph) : Prop :=
  ∀ v, (g.node v).subtree = none ∧ (g.node v).outEdges.length ≤ maxDegree

section Plain

variable {g : Graph} (hp : g.Plain tp.maxDegree) {last : ℕ} (hl : last < g.length)
  (hroom : (g.node last).outEdges.length < tp.maxDegree) (id token : ℕ)

lemma append_node_of_lt (g : Graph) (n : StoredVertex) {v : ℕ} (hv : v < g.length) :
    Graph.node (g ++ [n]) v = g.node v := by
  rw [Graph.node_append, if_neg (Nat.ne_of_lt hv)]

include hl hroom in
lemma childSplits_of_room : childSplits tp g id last token = [] := by
  rw [childSplits, append_node_of_lt _ _ hl]
  exact if_neg (fun h => Nat.ne_of_lt hroom h.2)

include hp hl hroom

lemma addChild_of_room : addChild tp g id last token =
    Graph.addEdge (g ++ [{ id := id, token := token }]) last g.length := by
  have hfull : ¬ (g.node last).outEdges.length = tp.maxDegree := Nat.ne_of_lt hroom
  simp only [addChild, append_node_of_lt g _ hl, (hp last).1, hfull, and_false, if_false]

lemma addChild_node_of_room (v : ℕ) : (addChild tp g id last token).node v =
    if v = last then { g.node last with outEdges := (g.node last).outEdges ++ [g.length] }
    else if v = g.length then { id := id, token := token } else g.node v := by
  rw [addChild_of_room tp hp hl hroom, Graph.addEdge,
    Graph.node_modify _ _ _ _ (by simp; omega), Graph.node_append]
  by_cases hv : v = last
  · rw [if_pos hv, if_pos hv, if_neg (by omega), hv]
  · rw [if_neg hv, if_neg hv]

lemma addChild_plain : (addChild tp g id last token).Plain tp.maxDegree := by
  intro v
  rw [addChild_node_of_room tp hp hl hroom]
  split
  · simp only [List.length_append, List.length_singleton]
    exact ⟨(hp last).1, hroom⟩
  · split
    · exact ⟨rfl, Nat.zero_le _⟩
    · exact hp v

omit hroom

lemma addChain_plain (tokens : List ℕ)
    (hroom : ∀ _t ∈ tokens.head?, (g.node last).outEdges.length < tp.maxDegree) :
    (addChain tp g id last tokens).Plain tp.maxDegree ∧ chainSplits tp g id last tokens = [] := by
  induction tokens generalizing g id last with
  | nil => exact ⟨hp, rfl⟩
  | cons t ts ih =>
    have hlt := hroom t rfl
    obtain ⟨hn, -⟩ := addChild_node tp hl id t
    have hnew : ((addChild tp g id last t).node g.length).outEdges = [] := by
      rw [addChild_node_of_room tp hp hl hlt, if_neg (by omega), if_pos rfl]
    have hlast : g.length < (addChild tp g id last t).length := by omega
    have hempty : ((addChild tp g id last t).node g.length).outEdges.length < tp.maxDegree := by
      rw [hnew]
      exact Nat.lt_of_lt_of_le Nat.two_pos tp.two_le
    obtain ⟨hchain, hsplits⟩ := ih (addChild_plain tp hp hl hlt id t) hlast (id + 1)
      (fun _ _ => hempty)
    exact ⟨hchain, by rw [chainSplits, childSplits_of_room tp hl hlt, hsplits, List.append_nil]⟩

lemma chainSplits_of_full {tokens : List ℕ} {t : ℕ} (ht : t ∈ tokens.head?)
    (hfull : ¬ (g.node last).outEdges.length < tp.maxDegree) :
    ∃ sp ∈ chainSplits tp g id last tokens, ¬ sp.Proper := by
  obtain ⟨ts, rfl⟩ := List.head?_eq_some_iff.mp ht
  obtain ⟨hnone, hle⟩ := hp last
  refine ⟨_, List.mem_append_left _ ?_, not_proper tp (g ++ [{ id := id, token := t }]) last⟩
  rw [childSplits, append_node_of_lt _ _ hl, if_pos ⟨hnone, by omega⟩, List.mem_singleton]

end Plain

section Settle

variable {DataType ContextData : Type}

def settleSplits (t : ContextTree DataType ContextData) (contextId : ℕ) (depth : ℤ) :
    List Split :=
  if t.validateId contextId then
    match t.contexts[contextId]? with
    | some con =>
      match settleWalk .pushRegret (t.tree.node con.leaf).id 0 con.path with
      | .ok (_, index) =>
        splitsLoop tp con.path (additionRounds (index + 1) depth con.additionSize) (index + 1)
          t.tree t.vertexNumber con.leaf
      | .error _ => []
    | none => []
  else []

lemma settleSplits_eq {t : ContextTree DataType ContextData} (h : t.Sound) {contextId : ℕ}
    (ha : contextId ∈ t.activeIds) {con : Context ContextData}
    (hc : t.contexts[contextId]? = some con) {path : List ℕ} (hr : Recorded t.tree con path)
    (depth : ℤ) : settleSplits tp t contextId depth =
      chainSplits tp t.tree t.vertexNumber con.leaf (newTokens con path.length depth) := by
  have hvalid : t.validateId contextId = true := h.pooled.validateId_iff.mpr (Or.inl ha)
  simp only [settleSplits, hvalid, if_true, hc, hr.settleWalk_eq h.ordered,
    Nat.sub_add_cancel hr.length_pos, splitsLoop_eq]
  rfl

lemma settleSplits_rejected {t : ContextTree DataType ContextData} (h : t.Sound) {contextId : ℕ}
    (ha : contextId ∉ t.activeIds) (depth : ℤ) : settleSplits tp t contextId depth = [] := by
  rw [settleSplits]
  split
  · rename_i hvalid
    obtain rfl := (h.pooled.validateId_iff.mp hvalid).resolve_left ha
    rw [List.getElem?_eq_none (Nat.le_of_eq h.contexts_length)]
  · rfl

def requestSplits (t : ContextTree DataType ContextData) (r : Request DataType) : List Split :=
  match r.settlement with
  | some (contextId, depth) => settleSplits tp t contextId depth
  | none => []

/-- If the request adds a vertex, then to one that has fewer than `maxDegree` children. -/
def HasRoom (t : ContextTree DataType ContextData) (r : Request DataType) : Prop :=
  ∀ e ∈ r.settlement, e.1 ∈ t.activeIds → ∀ con ∈ t.contexts[e.1]?,
    ∀ _n ∈ con.firstAddition e.2, (t.tree.node con.leaf).outEdges.length < tp.maxDegree

instance (t : ContextTree DataType ContextData) (r : Request DataType) :
    Decidable (HasRoom tp t r) :=
  inferInstanceAs (Decidable (∀ e ∈ r.settlement, _))

variable [DecidableEq DataType]

lemma Served.splits {t t' : ContextTree DataType ContextData} {r : Request DataType}
    (hs : Served tp t r t') (h : t.Sound) (hp : t.tree.Plain tp.maxDegree) :
    (HasRoom tp t r → t'.tree.Plain tp.maxDegree ∧ requestSplits tp t r = []) ∧
      (¬ HasRoom tp t r → ∃ sp ∈ requestSplits tp t r, ¬ sp.Proper) := by
  cases hs with
  | predicted hpred =>
    rw [hpred.same]
    refine ⟨fun _ => ⟨hp, rfl⟩, fun hn => (hn ?_).elim⟩
    intro e he
    cases he
  | @rejected _ contextId hset hn =>
    obtain ⟨depth, hr⟩ : ∃ depth, r.settlement = some (contextId, depth) := by
      cases r with
      | predict => cases hset
      | regret _ depth => exact ⟨depth, by rw [← Option.some.inj hset]; rfl⟩
      | reinforce _ depth => exact ⟨depth, by rw [← Option.some.inj hset]; rfl⟩
    rw [requestSplits, HasRoom, hr]
    refine ⟨fun _ => ⟨hp, settleSplits_rejected tp h hn depth⟩, fun hroom => (hroom ?_).elim⟩
    rintro e he ha
    obtain rfl := Option.some.inj he
    exact (hn ha).elim
  | @settled _ contextId con path depth hreq ha hc hr =>
    have hset : r.settlement = some (contextId, depth) := by rcases hreq with rfl | rfl <;> rfl
    have htree : (ContextTree.settled tp t contextId con path depth).tree =
      addChain tp t.tree t.vertexNumber con.leaf (newTokens con path.length depth) := rfl
    have hiff : HasRoom tp t r ↔ ∀ _n ∈ (newTokens con path.length depth).head?,
        (t.tree.node con.leaf).outEdges.length < tp.maxDegree := by
      rw [HasRoom, hset]
      constructor
      · intro hroom n hn
        exact hroom _ rfl ha con hc n (by rwa [hr.firstAddition])
      · rintro hroom e he - con' hc' n hn
        obtain rfl := Option.some.inj he
        obtain rfl := Option.some.inj (hc.symm.trans hc')
        rw [hr.firstAddition] at hn
        exact hroom n hn
    rw [requestSplits, hset, hiff, htree]
    dsimp only
    rw [settleSplits_eq tp h ha hc hr]
    refine ⟨addChain_plain tp hp hr.leaf_lt _ _, fun hfull => ?_⟩
    push Not at hfull
    obtain ⟨n, hn, hle⟩ := hfull
    exact chainSplits_of_full tp hp hr.leaf_lt _ hn (not_lt.mpr hle)

end Settle

section Write

variable {DataType ContextData Name : Type}

def reservedTokens : ℕ := 1

structure Drawing (Name : Type) where
  labels : List Name
  edges : List (ℕ × ℕ)

def Graph.edges (g : Graph) : List (ℕ × ℕ) :=
  (List.range g.length).flatMap (fun v => (g.node v).outEdges.map (fun u => (v, u)))

-- a `btree_map` lists its entries in the order of the keys
def subtreeChildren (g : Graph) (v : ℕ) : List ℕ :=
  match (g.node v).subtree with
  | some s => (s.entries.mergeSort (fun a b => decide (a.1 ≤ b.1))).map Sigma.snd
  | none => []

-- `temp_v` has a vertex once for each child in its subtree.
def addTemporary (g : Graph) : Graph × List ℕ :=
  (List.range g.length).foldl (fun r v => (subtreeChildren g v).foldl
    (fun r u => (r.1.addEdge v u, r.2 ++ [v])) r) (g, [])

def removeTemporary (g : Graph) (temp : List ℕ) : Graph :=
  temp.foldl (fun g v => (subtreeChildren g v).foldl (fun g u => g.removeEdge v u) g) g

def writeGraph (tokenNames : List Name) (t : ContextTree DataType ContextData) :
    Exec Container (ContextTree DataType ContextData × Drawing Name) := do
  let labels ← t.tree.mapM (fun n => fetch .words tokenNames (n.token + reservedTokens))
  let (g, temp) := addTemporary t.tree
  return ({ t with tree := removeTemporary g temp }, { labels := labels, edges := g.edges })

lemma addTemporary_of_plain {g : Graph} {d : ℕ} (h : g.Plain d) : addTemporary g = (g, []) := by
  have hnone (v : ℕ) : subtreeChildren g v = [] := by rw [subtreeChildren, (h v).1]
  apply List.foldl_fixed'
  intro v
  rw [hnone, List.foldl_nil]

lemma writeGraph_of_plain {t t' : ContextTree DataType ContextData} {d : ℕ} (h : t.tree.Plain d)
    {tokenNames : List Name} {drawing : Drawing Name}
    (he : writeGraph tokenNames t = .ok (t', drawing)) : t' = t := by
  obtain ⟨labels, -, hr⟩ := bind_eq_ok.mp he
  rw [addTemporary_of_plain h] at hr
  obtain ⟨rfl, -⟩ := Prod.mk.inj (Except.ok.inj hr)
  rfl

lemma writeGraph_exists {tokenNames : List Name} {t : ContextTree DataType ContextData}
    (h : ∀ v, v < t.tree.length → (t.tree.node v).token + reservedTokens < tokenNames.length) :
    ∃ t' drawing, writeGraph tokenNames t = .ok (t', drawing) := by
  have hlabels : ∃ labels, t.tree.mapM (fun n =>
      fetch Container.words tokenNames (n.token + reservedTokens)) = .ok labels := by
    refine mapM_exists fun n hn => ?_
    obtain ⟨v, hv, rfl⟩ := List.getElem_of_mem hn
    have hlt := h v hv
    rw [Graph.node_of_lt _ hv] at hlt
    exact ⟨_, fetch_of_getElem? (List.getElem?_eq_getElem hlt)⟩
  obtain ⟨labels, hlabels⟩ := hlabels
  exact ⟨_, _, by rw [writeGraph, hlabels]; rfl⟩

lemma writeGraph_labels {tokenNames : List Name} {t t' : ContextTree DataType ContextData}
    {drawing : Drawing Name} (he : writeGraph tokenNames t = .ok (t', drawing)) {v : ℕ}
    (hv : v < t.tree.length) :
    drawing.labels[v]? = tokenNames[(t.tree.node v).token + reservedTokens]? := by
  obtain ⟨labels, hlabels, hr⟩ := bind_eq_ok.mp he
  obtain ⟨-, rfl⟩ := Prod.mk.inj (Except.ok.inj hr)
  obtain ⟨hlen, hfetch⟩ := List.forall₂_iff_get.mp (mapM_eq_ok.mp hlabels)
  have hlt : v < labels.length := hlen ▸ hv
  have hlabel := fetch_eq_ok.mp (hfetch v hv hlt)
  rw [Graph.node_of_lt _ hv]
  exact (List.getElem?_eq_getElem hlt).trans hlabel.symm

end Write

section Law

variable {DataType ContextData Name M : Type} [DecidableEq DataType]
  (visitor : Visitor M ContextData)

inductive Operation (DataType Name : Type) where
  | request (r : Request DataType)
  | writeGraph (tokenNames : List Name)

def operate (s : ContextTree DataType ContextData × M) :
    Operation DataType Name → Exec Container (ContextTree DataType ContextData × M)
  | .request r => serve tp visitor s r
  | .writeGraph tokenNames => do
    let (t, _) ← writeGraph tokenNames s.1
    return (t, s.2)

def splits (s : ContextTree DataType ContextData × M) :
    Operation DataType Name → ContextTree DataType ContextData × M → List Split
  | .request r, _ => requestSplits tp s.1 r
  | .writeGraph _, _ => []

def Operation.HasRoom (t : ContextTree DataType ContextData) : Operation DataType Name → Prop
  | .request r => ContextTree.HasRoom tp t r
  | .writeGraph _ => True

instance (t : ContextTree DataType ContextData) (op : Operation DataType Name) :
    Decidable (op.HasRoom tp t) :=
  match op with
  | .request r => inferInstanceAs (Decidable (ContextTree.HasRoom tp t r))
  | .writeGraph _ => inferInstanceAs (Decidable True)

abbrev Operated (guard : (ContextTree DataType ContextData × M) × List Split →
    Operation DataType Name → Prop) (data : ContextData) (maxContexts : ℕ) (m : M)
    (operations : List (Operation DataType Name))
    (s : (ContextTree DataType ContextData × M) × List Split) : Prop :=
  Runs.Run (Runs.traced (operate tp visitor) (splits tp)) guard
    ((fresh data maxContexts, m), []) operations s

def Tidy (maxDegree : ℕ) (g : Graph) : Prop :=
  ∀ v, v < g.length →
    ((g.node v).subtree = none ∧ (g.node v).outEdges.length ≤ maxDegree) ∨
      ((g.node v).subtree ≠ none ∧ (g.node v).outEdges = [])

def Trimmed (s : (ContextTree DataType ContextData × M) × List Split) : Prop :=
  Tidy tp.maxDegree s.1.1.tree ∧ ∀ sp ∈ s.2, sp.Proper

omit [DecidableEq DataType] in
lemma Void.splits {t : ContextTree DataType ContextData} (h : Void t) (r : Request DataType) :
    requestSplits tp t r = [] ∧ ContextTree.HasRoom tp t r := by
  obtain ⟨-, hcontexts, hactive, -⟩ := h
  have hsplits (contextId : ℕ) (depth : ℤ) : settleSplits tp t contextId depth = [] := by
    simp [settleSplits, hcontexts]
  refine ⟨?_, fun e _ ha => by simp [hactive] at ha⟩
  cases r with
  | predict => rfl
  | regret contextId depth => exact hsplits contextId depth
  | reinforce contextId depth => exact hsplits contextId depth

structure Unsplit (s : (ContextTree DataType ContextData × M) × List Split) : Prop where
  pool : s.1.1.Sound ∨ Void s.1.1
  plain : s.1.1.tree.Plain tp.maxDegree
  none : s.2 = []

omit [DecidableEq DataType] in
lemma fresh_unsplit (data : ContextData) (maxContexts : ℕ) (m : M) :
    Unsplit tp (((fresh data maxContexts, m), []) : (ContextTree DataType ContextData × M) ×
      List Split) where
  pool := fresh_sound_or_void data maxContexts
  plain v := by
    cases v <;> exact ⟨rfl, Nat.zero_le _⟩
  none := rfl

omit [DecidableEq DataType] in
lemma Unsplit.trimmed {s : (ContextTree DataType ContextData × M) × List Split}
    (h : Unsplit tp s) : Trimmed tp s := by
  refine ⟨fun v _ => Or.inl (h.plain v), ?_⟩
  rw [h.none]
  exact fun _ hsp => by cases hsp

lemma Unsplit.operate {s s' : (ContextTree DataType ContextData × M) × List Split}
    (h : Unsplit tp s) {op : Operation DataType Name}
    (he : Runs.traced (operate tp visitor) (splits tp) s op = .ok s') :
    (op.HasRoom tp s.1.1 → Unsplit tp s') ∧ (¬ op.HasRoom tp s.1.1 → ¬ Trimmed tp s') := by
  obtain ⟨hstep, hlog⟩ := Runs.traced_eq_ok.mp he
  obtain ⟨hpool, hplain, hnone⟩ := h
  rw [hnone, List.nil_append] at hlog
  cases op with
  | writeGraph tokenNames =>
    obtain ⟨⟨t, drawing⟩, hwrite, hr⟩ := bind_eq_ok.mp hstep
    obtain rfl := writeGraph_of_plain hplain hwrite
    have hs' : s'.1 = s.1 := (Except.ok.inj hr).symm
    exact ⟨fun _ => ⟨hs' ▸ hpool, hs' ▸ hplain, hlog⟩, fun hn => (hn trivial).elim⟩
  | request r =>
    change s'.2 = requestSplits tp s.1.1 r at hlog
    rcases hpool with hsound | hvoid
    · obtain ⟨t, hserved, hdata⟩ := hsound.served tp visitor hstep
      obtain ⟨hkeep, hbreak⟩ := hserved.splits tp hsound hplain
      constructor
      · intro hroom
        obtain ⟨hplain', hsplits⟩ := hkeep hroom
        exact ⟨Or.inl (hdata.sound (hserved.sound hsound)), by rwa [hdata.tree],
          hlog.trans hsplits⟩
      · rintro hfull ⟨-, hproper⟩
        obtain ⟨sp, hsp, hbad⟩ := hbreak hfull
        exact hbad (hproper sp (hlog ▸ hsp))
    · have hs' := hvoid.serve tp visitor hstep
      obtain ⟨hsplits, hroom⟩ := hvoid.splits tp r
      exact ⟨fun _ => ⟨Or.inr (hs' ▸ hvoid), hs' ▸ hplain, hlog.trans hsplits⟩,
        fun hn => (hn hroom).elim⟩

theorem degrees_law (data : ContextData) (maxContexts : ℕ) (m : M)
    (operations : List (Operation DataType Name))
    (s : (ContextTree DataType ContextData × M) × List Split)
    (h : Operated tp visitor (fun _ _ => True) data maxContexts m operations s) :
    (∀ k t, Operated tp visitor (fun _ _ => True) data maxContexts m (operations.take k) t →
      Trimmed tp t) ↔
    Operated tp visitor (fun s op => op.HasRoom tp s.1.1) data maxContexts m operations s := by
  apply Runs.Run.forall_take_iff (P := Trimmed tp) (I := Unsplit tp) _ _ _ h
    (fresh_unsplit tp data maxContexts m)
  · exact fun s hs => hs.trimmed tp
  · exact fun s op s' hs hroom he => (hs.operate tp visitor he).1 hroom
  · exact fun s op s' hs hfull he => (hs.operate tp visitor he).2 hfull

theorem degrees_law_pair : ∃ s : (ContextTree ℕ Unit × Unit) × List Split,
    Operated ⟨2, by decide, fun _ _ _ => 0⟩ .silent (fun _ _ => True) () 3 ()
      [.request (.predict [7]), .request (.predict [8]), .request (.regret 0 5),
        .request (.reinforce 1 5), .writeGraph [0, 1, 2, 3]] s ∧
    Trimmed ⟨2, by decide, fun _ _ _ => 0⟩ s := by
  have h : Operated ⟨2, by decide, fun _ _ _ => 0⟩ .silent
      (fun s op => op.HasRoom ⟨2, by decide, fun _ _ _ => 0⟩ s.1.1) () 3 ()
      [.request (.predict [7]), .request (.predict [8]), .request (.regret 0 5),
        .request (.reinforce 1 5), .writeGraph [0, 1, 2, 3]] _ :=
    .cons (by decide) rfl (.cons (by decide) rfl (.cons (by decide) rfl (.cons (by decide) rfl
      (.cons trivial rfl .nil))))
  have hall := (degrees_law _ .silent () 3 () _ _ h.unguarded).mpr h
  exact ⟨_, h.unguarded, hall 5 _ h.unguarded⟩

theorem degrees_law_fails : ¬ ∀ (tp : Template) (operations : List (Operation ℕ ℕ))
    (s : (ContextTree ℕ Unit × Unit) × List Split),
    Operated tp .silent (fun _ _ => True) () 3 () operations s → Trimmed tp s := by
  -- the third child splits the root, which keeps its two out-edges
  intro h
  have hrun : Operated ⟨2, by decide, fun _ _ _ => 0⟩ .silent (fun _ _ => True) () 3 ()
      ([.request (.predict [7]), .request (.predict [8]), .request (.predict [9]),
        .request (.regret 0 5), .request (.regret 1 5), .request (.regret 2 5)] :
        List (Operation ℕ ℕ)) _ :=
    .cons trivial rfl (.cons trivial rfl (.cons trivial rfl (.cons trivial rfl
      (.cons trivial rfl (.cons trivial rfl .nil)))))
  have hroot := (h _ _ _ hrun).1 0 (by decide)
  rcases hroot with ⟨hnone, -⟩ | ⟨-, hempty⟩
  · cases hnone
  · cases hempty

end Law

end WordModel.ContextTree
