import WordModel.ContextTree.Degrees
import WordModel.Library.Observed

/-! What drawing the tree leaves of it. Of the vertices that were split it takes out-edges
away, and those are not followed any more. -/

namespace WordModel.ContextTree

open Checked

/-- A vertex with a subtree finds its children there. -/
def StoredVertex.pruned (n : StoredVertex) : StoredVertex :=
  if n.subtree = none then n else { n with outEdges := [] }

def Graph.pruned (g : Graph) : Graph := g.map StoredVertex.pruned

variable {g g' : Graph}

lemma pruned_property (n : StoredVertex) : n.pruned.toVertexProperty = n.toVertexProperty := by
  rw [StoredVertex.pruned]
  split
  · rfl
  · rfl

lemma pruned_edges {n n' : StoredVertex} (h : n.pruned = n'.pruned) (hn : n.subtree = none) :
    n.outEdges = n'.outEdges := by
  have hn' : n'.subtree = none := by
    rw [← pruned_property, ← h, pruned_property, hn]
  rw [StoredVertex.pruned, StoredVertex.pruned, if_pos hn, if_pos hn'] at h
  rw [h]

lemma pruned_of_edges {n n' : StoredVertex} (hn : n.subtree ≠ none)
    (h : n.toVertexProperty = n'.toVertexProperty) : n.pruned = n'.pruned := by
  obtain ⟨⟨id, token, subtree⟩, edges⟩ := n
  obtain ⟨⟨id', token', subtree'⟩, edges'⟩ := n'
  obtain ⟨rfl, rfl, rfl⟩ := VertexProperty.mk.inj h
  rw [StoredVertex.pruned, StoredVertex.pruned, if_neg hn, if_neg hn]

namespace Graph

lemma pruned_length (h : g.pruned = g'.pruned) : g.length = g'.length := by
  have hlen := congrArg List.length h
  rwa [pruned, pruned, List.length_map, List.length_map] at hlen

lemma node_pruned (g : Graph) (v : ℕ) : g.pruned.node v = (g.node v).pruned := by
  rw [node, node, pruned, List.getD_eq_getElem?_getD, List.getD_eq_getElem?_getD, List.getElem?_map]
  cases g[v]? with
  | none => rfl
  | some n => rfl

lemma pruned_node (h : g.pruned = g'.pruned) (v : ℕ) : (g.node v).pruned = (g'.node v).pruned := by
  rw [← node_pruned, h, node_pruned]

lemma node_property (h : g.pruned = g'.pruned) (v : ℕ) :
    (g.node v).toVertexProperty = (g'.node v).toVertexProperty := by
  rw [← pruned_property, pruned_node h, pruned_property]

lemma pruned_append (h : g.pruned = g'.pruned) (n : StoredVertex) :
    Graph.pruned (g ++ [n]) = Graph.pruned (g' ++ [n]) := by
  rw [pruned, pruned, List.map_append, List.map_append]
  exact congrArg (· ++ [n.pruned]) h

lemma pruned_modify (h : g.pruned = g'.pruned) (v : ℕ) {f f' : StoredVertex → StoredVertex}
    (hf : (f (g.node v)).pruned = (f' (g'.node v)).pruned) :
    Graph.pruned (g.modify v f) = Graph.pruned (g'.modify v f') := by
  have hlen := pruned_length h
  apply List.ext_getElem
  · simp only [pruned, List.length_map, List.length_modify, hlen]
  · intro u hu hu'
    simp only [pruned, List.length_map, List.length_modify] at hu hu'
    have hnode := pruned_node h u
    rw [node_of_lt g hu, node_of_lt g' hu'] at hnode
    simp only [pruned, List.getElem_map, List.getElem_modify]
    by_cases huv : v = u
    · subst huv
      rw [if_pos rfl, if_pos rfl, ← node_of_lt g hu, ← node_of_lt g' hu', hf]
    · rw [if_neg huv, if_neg huv, hnode]

lemma pruned_modify_edges {v : ℕ} (hv : (g.node v).subtree ≠ none) (f : List ℕ → List ℕ) :
    Graph.pruned (g.modify v (fun n => { n with outEdges := f n.outEdges })) = g.pruned := by
  have hsame : Graph.pruned (g.modify v (fun n => { n with outEdges := f n.outEdges })) =
      Graph.pruned (g.modify v id) := pruned_modify rfl v (pruned_of_edges hv rfl)
  rwa [List.modify_id] at hsame

end Graph

lemma descend_pruned (h : g.pruned = g'.pruned) (v token : ℕ) :
    descend g v token = descend g' v token := by
  have hsubtree := congrArg VertexProperty.subtree (Graph.node_property h v)
  rw [descend, descend, ← hsubtree]
  cases hs : (g.node v).subtree with
  | some s => rfl
  | none =>
    dsimp only
    rw [pruned_edges (Graph.pruned_node h v) hs]
    refine List.find?_congr fun u _ => ?_
    rw [congrArg VertexProperty.token (Graph.node_property h u)]

section

variable (tp : Template)

lemma removeEdges_pruned {v : ℕ} (hv : (g.node v).subtree ≠ none) (us : List ℕ) :
    Graph.pruned (us.foldl (fun g i => g.removeEdge v (tp.pastEnd g v i)) g) = g.pruned := by
  induction us generalizing g with
  | nil => rfl
  | cons u us ih =>
    have hnext : ((g.removeEdge v (tp.pastEnd g v u)).node v).subtree ≠ none := by
      rw [congrArg VertexProperty.subtree (removeEdge_node g v _ v).1]
      exact hv
    rw [List.foldl_cons, ih hnext]
    exact Graph.pruned_modify_edges hv (·.filter (· ≠ tp.pastEnd g v u))

lemma splitVertex_pruned (h : g.pruned = g'.pruned) {v : ℕ} (hv : v < g.length)
    (hn : (g.node v).subtree = none) :
    (splitVertex tp g v).pruned = (splitVertex tp g' v).pruned := by
  have hv' : v < g'.length := Graph.pruned_length h ▸ hv
  have hfiled : splitSubtree g v = splitSubtree g' v := by
    have htoken (u : ℕ) := congrArg VertexProperty.token (Graph.node_property h u)
    simp only [splitSubtree, htoken, pruned_edges (Graph.pruned_node h v) hn]
  have hset (g : Graph) (hv : v < g.length) (s : Subtree) :
      ((g.setSubtree v s).node v).subtree ≠ none := by
    rw [Graph.setSubtree, Graph.node_modify _ _ _ _ hv, if_pos rfl]
    exact Option.some_ne_none s
  rw [splitVertex, splitVertex, removeEdges_pruned tp (hset g hv _),
    removeEdges_pruned tp (hset g' hv' _), hfiled]
  refine Graph.pruned_modify h v (pruned_of_edges (Option.some_ne_none _) ?_)
  have hproperty := Graph.node_property h v
  dsimp only
  rw [hproperty]

lemma prepared_pruned (h : g.pruned = g'.pruned) (id last token : ℕ) :
    (prepared tp g id last token).pruned = (prepared tp g' id last token).pruned := by
  have hg := Graph.pruned_append h { id := id, token := token }
  rw [prepared, prepared]
  generalize g ++ [{ id := id, token := token }] = g at hg
  generalize g' ++ [{ id := id, token := token }] = g' at hg
  have hsubtree := congrArg VertexProperty.subtree (Graph.node_property hg last)
  by_cases hn : (Graph.node g last).subtree = none
  · have hedges := pruned_edges (Graph.pruned_node hg last) hn
    rw [← hsubtree, ← hedges]
    split
    · rename_i hfull
      refine splitVertex_pruned tp hg ?_ hn
      by_contra hle
      rw [Graph.node_of_le g (not_lt.mp hle)] at hfull
      have htwo := tp.two_le
      have hzero : 0 = tp.maxDegree := hfull.2
      omega
    · exact hg
  · have hn' : ¬ (Graph.node g' last).subtree = none := hsubtree ▸ hn
    rw [if_neg fun hh => hn hh.1, if_neg fun hh => hn' hh.1]
    exact hg

lemma addChild_pruned (h : g.pruned = g'.pruned) (id last token : ℕ) :
    (addChild tp g id last token).pruned = (addChild tp g' id last token).pruned := by
  have hp := prepared_pruned tp h id last token
  rw [addChild_eq, addChild_eq, ← Graph.pruned_length h]
  generalize prepared tp g id last token = q at hp
  generalize prepared tp g' id last token = q' at hp
  have hproperty := Graph.node_property hp last
  rw [← congrArg VertexProperty.subtree hproperty]
  cases hs : (q.node last).subtree with
  | some s =>
    refine Graph.pruned_modify hp last (pruned_of_edges (Option.some_ne_none _) ?_)
    dsimp only
    rw [hproperty]
  | none =>
    refine Graph.pruned_modify hp last ?_
    have hs' : (q'.node last).subtree = none := by
      rw [← congrArg VertexProperty.subtree hproperty]
      exact hs
    rw [StoredVertex.pruned, StoredVertex.pruned, if_pos hs, if_pos hs',
      pruned_edges (Graph.pruned_node hp last) hs, hproperty]

lemma addNodesLoop_pruned (path : List VertexProperty) (index : ℕ) (regret : Bool) (rounds i : ℕ)
    (h : g.pruned = g'.pruned) (vertexNumber last : ℕ) :
    Agree (Prod.map Graph.pruned id) (addNodesLoop tp path index regret rounds i g vertexNumber last)
      (addNodesLoop tp path index regret rounds i g' vertexNumber last) := by
  induction rounds generalizing i g g' vertexNumber last with
  | zero => exact agree_ok (congrArg (fun g => (g, vertexNumber, last, [])) h)
  | succ rounds ih =>
    rw [addNodesLoop, addNodesLoop]
    refine (Agree.refl id _).bind fun p q hpq => ?_
    obtain rfl : p = q := hpq
    rw [← Graph.pruned_length h]
    refine (ih (i + 1) (addChild_pruned tp h _ _ _) _ _).bind ?_
    rintro ⟨g, n, leaf, calls⟩ ⟨g', n', leaf', calls'⟩ hsame
    obtain ⟨hg, hrest⟩ := Prod.mk.inj hsame
    obtain ⟨rfl, rfl, rfl⟩ : n = n' ∧ leaf = leaf' ∧ calls = calls' := by simpa using hrest
    exact agree_ok (congrArg (fun g => (g, n, leaf, _)) hg)

end

lemma addTemporary_pruned (g : Graph) : (addTemporary g).1.pruned = g.pruned ∧
    ∀ v ∈ (addTemporary g).2, (g.node v).subtree ≠ none := by
  have children (vs : List ℕ) (r : Graph × List ℕ) (hr : r.1.pruned = g.pruned ∧
      ∀ v ∈ r.2, (g.node v).subtree ≠ none) :
      (vs.foldl (fun r v => (subtreeChildren g v).foldl
        (fun r u => (r.1.addEdge v u, r.2 ++ [v])) r) r).1.pruned = g.pruned ∧
      ∀ v ∈ (vs.foldl (fun r v => (subtreeChildren g v).foldl
        (fun r u => (r.1.addEdge v u, r.2 ++ [v])) r) r).2, (g.node v).subtree ≠ none := by
    induction vs generalizing r with
    | nil => exact hr
    | cons v vs ih =>
      rw [List.foldl_cons]
      apply ih
      by_cases hv : (g.node v).subtree = none
      · rw [subtreeChildren, hv]
        exact hr
      · generalize subtreeChildren g v = us
        induction us generalizing r with
        | nil => exact hr
        | cons u us ihu =>
          refine ihu (r.1.addEdge v u, r.2 ++ [v]) ⟨?_, ?_⟩
          · have hsplit : (r.1.node v).subtree ≠ none := by
              rw [congrArg VertexProperty.subtree (Graph.node_property hr.1 v)]
              exact hv
            exact (Graph.pruned_modify_edges hsplit (· ++ [u])).trans hr.1
          · intro w hw
            rcases List.mem_append.mp hw with hw | hw
            · exact hr.2 w hw
            · exact List.mem_singleton.mp hw ▸ hv
  exact children (List.range g.length) (g, []) ⟨rfl, by simp⟩

lemma removeTemporary_pruned {temp : List ℕ} (ht : ∀ v ∈ temp, (g.node v).subtree ≠ none) :
    (removeTemporary g temp).pruned = g.pruned := by
  have inner (v : ℕ) (us : List ℕ) {g : Graph} (hv : (g.node v).subtree ≠ none) :
      Graph.pruned (us.foldl (fun g u => g.removeEdge v u) g) = g.pruned := by
    induction us generalizing g with
    | nil => rfl
    | cons u us ih =>
      rw [List.foldl_cons, ih (by rwa [congrArg VertexProperty.subtree (removeEdge_node g v u v).1])]
      exact Graph.pruned_modify_edges hv (·.filter (· ≠ u))
  rw [removeTemporary]
  induction temp generalizing g with
  | nil => rfl
  | cons v temp ih =>
    have hstep := inner v (subtreeChildren g v) (ht v (by simp))
    rw [List.foldl_cons, ih, hstep]
    intro w hw
    rw [congrArg VertexProperty.subtree (Graph.node_property hstep w)]
    exact ht w (List.mem_cons_of_mem v hw)

lemma drawn_pruned (g : Graph) :
    (removeTemporary (addTemporary g).1 (addTemporary g).2).pruned = g.pruned := by
  obtain ⟨hadd, hsplit⟩ := addTemporary_pruned g
  rw [removeTemporary_pruned, hadd]
  intro v hv
  rw [congrArg VertexProperty.subtree (Graph.node_property hadd v)]
  exact hsplit v hv

end WordModel.ContextTree

namespace WordModel

open Checked ContextTree

namespace ContextTree

variable {DataType ContextData Name M : Type}

def pruned (t : ContextTree DataType ContextData) : ContextTree DataType ContextData :=
  { t with tree := t.tree.pruned }

lemma pruned_mk {t : ContextTree DataType ContextData} {g : Graph} (h : t.tree.pruned = g.pruned) :
    t.pruned = pruned { t with tree := g } := by
  rw [pruned, pruned, h]

lemma pruned_cases {t t' : ContextTree DataType ContextData} (h : t.pruned = t'.pruned) :
    ∃ g, t' = { t with tree := g } ∧ t.tree.pruned = g.pruned := by
  refine ⟨t'.tree, ?_, congrArg tree h⟩
  cases t
  cases t'
  simp only [pruned, ContextTree.mk.injEq] at h
  obtain ⟨-, rfl, rfl, rfl, rfl, rfl, rfl, rfl⟩ := h
  rfl

lemma activateContext_pruned {t t' : ContextTree DataType ContextData} (h : t.pruned = t'.pruned) :
    Agree (Prod.map id (Prod.map id pruned)) t.activateContext t'.activateContext := by
  obtain ⟨g, rfl, hg⟩ := pruned_cases h
  rw [activateContext_eq, activateContext_eq]
  have hflush : Agree pruned (if t.inactiveIds = [] then t.flushIds else .ok t)
      (if t.inactiveIds = [] then flushIds { t with tree := g } else .ok { t with tree := g }) := by
    split
    · refine (Agree.refl id (flushLoop t.maxContexts t.activeIds t.inactiveIds)).bind ?_
      rintro ⟨active, inactive⟩ _ rfl
      exact agree_ok (pruned_mk hg)
    · exact agree_ok h
  refine hflush.bind fun t t' h => ?_
  obtain ⟨g, rfl, hg⟩ := pruned_cases h
  refine (Agree.refl id (popFront Container.inactiveIds t.inactiveIds)).bind ?_
  rintro ⟨contextId, inactive⟩ _ rfl
  refine (Agree.refl id (fetch Container.contexts t.contexts contextId)).bind ?_
  rintro con _ rfl
  exact agree_ok (Prod.ext rfl (Prod.ext rfl (pruned_mk hg)))

variable [DecidableEq DataType]

lemma predictLoop_pruned {g g' : Graph} (h : g.pruned = g'.pruned) (tk : Tokens DataType)
    (con : Context ContextData) (v i : ℕ) (cs : List DataType) :
    predictLoop g tk con v i cs = predictLoop g' tk con v i cs := by
  have hid (v : ℕ) := congrArg VertexProperty.id (Graph.node_property h v)
  induction cs generalizing tk con v i with
  | nil => rw [predictLoop, predictLoop, hid]
  | cons c cs ih =>
    rw [predictLoop, predictLoop, hid]
    simp only [descend_pruned h, ih]

variable {t t' : ContextTree DataType ContextData} (h : t.pruned = t'.pruned)

include h

lemma predict_pruned (dataFrag : List DataType) :
    Agree (Prod.map id (Prod.map pruned id)) (t.predict dataFrag) (t'.predict dataFrag) := by
  refine (activateContext_pruned h).bind ?_
  rintro ⟨contextId, con, t⟩ ⟨contextId', con', t'⟩ hsame
  obtain ⟨rfl, hrest⟩ := Prod.mk.inj hsame
  obtain ⟨rfl, h⟩ := Prod.mk.inj hrest
  obtain ⟨g, rfl, hg⟩ := pruned_cases h
  dsimp only
  rw [predictLoop_pruned hg]
  exact agree_ok (congrArg (fun t => (contextId, t, _)) (pruned_mk hg))

omit [DecidableEq DataType] in
lemma settle_pruned (tp : Template) (push : ℕ → ℕ → Callback) (isRegret : Bool) (contextId : ℕ)
    (depth : ℤ) : Agree (Prod.map pruned id) (t.settle tp push isRegret contextId depth)
      (t'.settle tp push isRegret contextId depth) := by
  obtain ⟨g, rfl, hg⟩ := pruned_cases h
  rw [settle, settle]
  have hsame : validateId { t with tree := g } contextId = t.validateId contextId := rfl
  rw [hsame]
  by_cases hvalid : t.validateId contextId = true
  · rw [if_pos hvalid, if_pos hvalid]
    refine (Agree.refl id (fetch Container.contexts t.contexts contextId)).bind ?_
    rintro con _ rfl
    rw [congrArg VertexProperty.id (Graph.node_property hg con.leaf)]
    refine (Agree.refl id (settleWalk push _ 0 con.path)).bind ?_
    rintro ⟨pushes, index⟩ _ rfl
    refine (addNodesLoop_pruned tp _ _ _ _ _ hg _ _).bind ?_
    rintro ⟨g, n, leaf, additions⟩ ⟨g', n', leaf', additions'⟩ hsame
    obtain ⟨hg, hrest⟩ := Prod.mk.inj hsame
    obtain ⟨rfl, rfl, rfl⟩ : n = n' ∧ leaf = leaf' ∧ additions = additions' := by simpa using hrest
    refine agree_ok (congrArg (fun t => (t, pushes ++ additions)) (pruned_mk hg))
  · rw [if_neg hvalid, if_neg hvalid]
    exact agree_ok (congrArg (fun t => (t, [])) h)

omit [DecidableEq DataType] in
lemma deliver_pruned (visitor : Visitor M ContextData) (contextId : ℕ) (m : M)
    (calls : List Callback) : Agree (Prod.map pruned id) (deliver visitor contextId (t, m) calls)
      (deliver visitor contextId (t', m) calls) := by
  refine Agree.foldlM ?_ calls (congrArg (fun t => (t, m)) h)
  rintro ⟨t, m⟩ ⟨t', m'⟩ c hsame
  obtain ⟨h, hm⟩ := Prod.mk.inj hsame
  obtain rfl : m = m' := hm
  obtain ⟨g, rfl, hg⟩ := pruned_cases h
  refine (Agree.refl id (fetch Container.contexts t.contexts contextId)).bind ?_
  rintro con _ rfl
  refine (Agree.refl id (visitor.visit c (m, con.data))).bind ?_
  rintro ⟨m, data⟩ _ rfl
  exact agree_ok (congrArg (fun t => (t, m)) (pruned_mk hg))

lemma serve_pruned (tp : Template) (visitor : Visitor M ContextData) (m : M) (r : Request DataType) :
    Agree (Prod.map pruned id) (serve tp visitor (t, m) r) (serve tp visitor (t', m) r) := by
  cases r with
  | predict dataFrag =>
    refine (predict_pruned h dataFrag).bind ?_
    rintro ⟨contextId, t, calls⟩ ⟨contextId', t', calls'⟩ hsame
    obtain ⟨rfl, hrest⟩ := Prod.mk.inj hsame
    obtain ⟨h, rfl⟩ := Prod.mk.inj hrest
    exact deliver_pruned h visitor contextId m calls
  | regret contextId depth =>
    refine (settle_pruned h tp _ _ contextId depth).bind ?_
    rintro ⟨t, calls⟩ ⟨t', calls'⟩ hsame
    obtain ⟨h, rfl⟩ := Prod.mk.inj hsame
    exact deliver_pruned h visitor contextId m calls
  | reinforce contextId depth =>
    refine (settle_pruned h tp _ _ contextId depth).bind ?_
    rintro ⟨t, calls⟩ ⟨t', calls'⟩ hsame
    obtain ⟨h, rfl⟩ := Prod.mk.inj hsame
    exact deliver_pruned h visitor contextId m calls

omit [DecidableEq DataType] in
lemma writeGraph_pruned (tokenNames : List Name) :
    Agree (Prod.map pruned Drawing.labels) (writeGraph tokenNames t) (writeGraph tokenNames t') := by
  obtain ⟨g, rfl, hg⟩ := pruned_cases h
  have hlabels (g : Graph) : g.mapM (fun n =>
      fetch Container.words tokenNames (n.token + reservedTokens)) = g.pruned.mapM (fun n =>
        fetch Container.words tokenNames (n.token + reservedTokens)) := by
    rw [Graph.pruned, List.mapM_map]
    congr 1
    funext n
    rw [Function.comp_apply, congrArg VertexProperty.token (pruned_property n)]
  rw [writeGraph, writeGraph, hlabels, hg, ← hlabels]
  refine (Agree.refl id (List.mapM _ g)).bind ?_
  rintro labels _ rfl
  refine agree_ok (congrArg (fun t => (t, labels)) ?_)
  exact (pruned_mk (drawn_pruned t.tree).symm).symm.trans (h.trans (pruned_mk (drawn_pruned g).symm))

omit h [DecidableEq DataType] in
lemma writeGraph_keeps {t t' : ContextTree DataType ContextData} {tokenNames : List Name}
    {drawing : Drawing Name} (he : writeGraph tokenNames t = .ok (t', drawing)) :
    t'.pruned = t.pruned := by
  obtain ⟨labels, -, hr⟩ := bind_eq_ok.mp he
  obtain ⟨rfl, -⟩ := Prod.mk.inj (Except.ok.inj hr)
  exact (pruned_mk (drawn_pruned t.tree).symm).symm

end ContextTree

end WordModel
