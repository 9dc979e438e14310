import WordModel.ContextTree.Graph
import Mathlib.Data.List.Find

/-! What one inserted child changes: the labels and the children of the graph, and
the answers of `descend`, across the split of the parent. -/

namespace WordModel.ContextTree

open Follow

namespace Graph

lemma node_modify (g : Graph) (v u : ℕ) (f : StoredVertex → StoredVertex)
    (hv : v < g.length) :
    Graph.node (g.modify v f) u = if u = v then f (g.node u) else g.node u := by
  simp only [node]
  by_cases h : u = v
  · subst h
    simp [List.getD_eq_getElem?_getD, List.getElem?_eq_getElem hv]
  · simp [List.getD_eq_getElem?_getD, List.getElem?_modify_ne _ _ (Ne.symm h), h]

lemma node_append (g : Graph) (n : StoredVertex) (u : ℕ) :
    Graph.node (g ++ [n]) u = if u = g.length then n else g.node u := by
  simp only [node, List.getD_eq_getElem?_getD]
  rcases lt_trichotomy u g.length with h | h | h
  · simp [List.getElem?_append_left h, Nat.ne_of_lt h]
  · simp [h]
  · rw [List.getElem?_eq_none (by simp; omega), List.getElem?_eq_none (by omega)]
    simp [Nat.ne_of_gt h]

lemma node_of_le (g : Graph) {u : ℕ} (h : g.length ≤ u) : g.node u = {} := by
  simp [node, List.getD_eq_getElem?_getD, List.getElem?_eq_none h]

lemma node_of_lt (g : Graph) {u : ℕ} (h : u < g.length) : g.node u = g[u] := by
  simp [node, List.getD_eq_getElem?_getD, List.getElem?_eq_getElem h]

end Graph

lemma descend_of_le (g : Graph) {v : ℕ} (h : g.length ≤ v) (t : ℕ) : descend g v t = none := by
  simp [descend, g.node_of_le h]

lemma Graph.Ordered.isChild_of_descend {g : Graph} (hg : g.Ordered) {v u : ℕ} {t : ℕ}
    (h : descend g v t = some u) : IsChild g v u ∧ (g.node u).token = t := by
  rw [descend] at h
  cases hs : (g.node v).subtree with
  | some s =>
    simp only [hs] at h
    exact ⟨Or.inr ⟨s, t, hs, h⟩, hg.filed v s t u hs h⟩
  | none =>
    simp only [hs] at h
    exact ⟨Or.inl (List.mem_of_find?_eq_some h), by simpa using List.find?_some h⟩

section Split

variable (tp : Template)

lemma removeEdge_length (g : Graph) (v u : ℕ) : (g.removeEdge v u).length = g.length := by
  simp [Graph.removeEdge]

lemma removeEdge_node (g : Graph) (v u w : ℕ) :
    ((g.removeEdge v u).node w).toVertexProperty = (g.node w).toVertexProperty ∧
      ((g.removeEdge v u).node w).outEdges ⊆ (g.node w).outEdges ∧
      (w ≠ v → (g.removeEdge v u).node w = g.node w) := by
  by_cases hv : v < g.length
  · rw [Graph.removeEdge, Graph.node_modify _ _ _ _ hv]
    by_cases hw : w = v
    · subst hw
      simp
    · simp [hw]
  · rw [Graph.removeEdge, List.modify_eq_self (by omega)]
    simp

lemma removeEdges_node (g : Graph) (v : ℕ) (xs : List ℕ) :
    let g' := xs.foldl (fun g i => g.removeEdge v (tp.pastEnd g v i)) g
    g'.length = g.length ∧ ∀ w, (g'.node w).toVertexProperty = (g.node w).toVertexProperty ∧
      (g'.node w).outEdges ⊆ (g.node w).outEdges ∧ (w ≠ v → g'.node w = g.node w) := by
  induction xs generalizing g with
  | nil => simp
  | cons x xs ih =>
    obtain ⟨hl, hn⟩ := ih (g.removeEdge v (tp.pastEnd g v x))
    refine ⟨hl.trans (removeEdge_length _ _ _), ?_⟩
    intro w
    obtain ⟨hp, hs, hw⟩ := hn w
    obtain ⟨hp', hs', hw'⟩ := removeEdge_node g v (tp.pastEnd g v x) w
    exact ⟨hp.trans hp', List.Subset.trans hs hs', fun h => (hw h).trans (hw' h)⟩

lemma splitVertex_node (g : Graph) (v : ℕ) (hv : v < g.length) :
    (splitVertex tp g v).length = g.length ∧
      ∀ w, ((splitVertex tp g v).node w).toVertexProperty =
          (if w = v then { (g.node v).toVertexProperty with subtree := some (splitSubtree g v) }
            else (g.node w).toVertexProperty) ∧
        ((splitVertex tp g v).node w).outEdges ⊆ (g.node w).outEdges ∧
        (w ≠ v → (splitVertex tp g v).node w = g.node w) := by
  let split := g.setSubtree v (splitSubtree g v)
  obtain ⟨hl, hn⟩ : (splitVertex tp g v).length = split.length ∧ ∀ w,
      ((splitVertex tp g v).node w).toVertexProperty = (split.node w).toVertexProperty ∧
      ((splitVertex tp g v).node w).outEdges ⊆ (split.node w).outEdges ∧
      (w ≠ v → (splitVertex tp g v).node w = split.node w) :=
    removeEdges_node tp split v (List.range tp.maxDegree)
  have hs : ∀ w, split.node w =
      if w = v then { g.node w with subtree := some (splitSubtree g v) } else g.node w :=
    fun w => Graph.node_modify _ _ _ _ hv
  refine ⟨hl.trans (by simp [split, Graph.setSubtree]), ?_⟩
  intro w
  obtain ⟨hp, ho, hw⟩ := hn w
  rw [hs] at hp ho hw
  refine ⟨hp.trans ?_, ?_, ?_⟩
  · by_cases h : w = v <;> simp [h]
  · by_cases h : w = v
    · subst h
      simpa using ho
    · simpa [h] using ho
  · intro h
    simpa [h] using hw h

lemma descend_congr {g g' : Graph} {v v' : ℕ} {t : ℕ}
    (hs : (g'.node v).subtree = (g.node v').subtree)
    (ho : (g'.node v).outEdges = (g.node v').outEdges)
    (ht : ∀ u ∈ (g.node v').outEdges, (g'.node u).token = (g.node u).token) :
    descend g' v t = descend g v' t := by
  simp only [descend]
  rw [hs, ho]
  cases (g.node v').subtree with
  | some s => rfl
  | none =>
    exact List.find?_congr (fun u hu => by rw [ht u hu])

lemma descend_splitVertex (g : Graph) {v : ℕ} (hv : v < g.length)
    (hn : (g.node v).subtree = none) (w : ℕ) (t : ℕ) :
    descend (splitVertex tp g v) w t = descend g w t := by
  obtain ⟨_, hs⟩ := splitVertex_node tp g v hv
  have htoken : ∀ u, ((splitVertex tp g v).node u).token = (g.node u).token := by
    intro u
    have hu := congrArg VertexProperty.token (hs u).1
    by_cases h : u = v <;> simpa [h] using hu
  by_cases hw : w = v
  · subst hw
    have hsub : ((splitVertex tp g w).node w).subtree = some (splitSubtree g w) := by
      simpa using congrArg VertexProperty.subtree (hs w).1
    simp only [descend, hsub, hn, splitSubtree, lookup_foldl_insertNew, AList.lookup_empty,
      Option.none_or]
  · have he := (hs w).2.2 hw
    exact descend_congr (by rw [he]) (by rw [he]) (fun u _ => htoken u)

lemma isChild_of_splitVertex (g : Graph) {v : ℕ} (hv : v < g.length) {w u : ℕ}
    (h : IsChild (splitVertex tp g v) w u) : IsChild g w u := by
  obtain ⟨_, hs⟩ := splitVertex_node tp g v hv
  obtain ⟨hp, ho, _⟩ := hs w
  rcases h with h | ⟨s, t, h, hl⟩
  · exact Or.inl (ho h)
  · have hsub := congrArg VertexProperty.subtree hp
    by_cases hw : w = v
    · subst hw
      have he : splitSubtree g w = s := by simpa [h, eq_comm] using hsub
      rw [← he, splitSubtree, lookup_foldl_insertNew, AList.lookup_empty, Option.none_or] at hl
      exact Or.inl (List.mem_of_find?_eq_some hl)
    · exact Or.inr ⟨s, t, by simpa [hw, h] using hsub.symm, hl⟩

def prepared (g : Graph) (id last token : ℕ) : Graph :=
  let g := g ++ [{ id := id, token := token }]
  if (g.node last).subtree = none ∧ (g.node last).outEdges.length = tp.maxDegree
    then splitVertex tp g last else g

variable {g : Graph} {last : ℕ} (hg : g.Ordered) (hl : last < g.length) (id token : ℕ)

include hl in
lemma prepared_node :
    (prepared tp g id last token).length = g.length + 1 ∧
      ∀ w, ((prepared tp g id last token).node w).id =
          (if w = g.length then id else (g.node w).id) ∧
        ((prepared tp g id last token).node w).token =
          (if w = g.length then token else (g.node w).token) := by
  have hlen : last < (g ++ [{ id := id, token := token }] : Graph).length := by simp; omega
  have hnode (w : ℕ) := Graph.node_append g { id := id, token := token } w
  rw [prepared]
  split
  · obtain ⟨hn, hs⟩ := splitVertex_node tp _ last hlen
    refine ⟨hn.trans (by simp), fun w => ?_⟩
    have hid := congrArg VertexProperty.id (hs w).1
    have htoken := congrArg VertexProperty.token (hs w).1
    by_cases hw : w = last
    · subst hw
      simp only [↓reduceIte] at hid htoken
      rw [hid, htoken, hnode]
      simp [Nat.ne_of_lt hl]
    · simp only [hw, ↓reduceIte] at hid htoken
      rw [hid, htoken, hnode]
      constructor <;> split <;> rfl
  · refine ⟨by simp, fun w => ?_⟩
    rw [hnode]
    constructor <;> split <;> rfl

include hg hl in
lemma descend_prepared (v t : ℕ) :
    descend (prepared tp g id last token) v t = descend g v t := by
  have hlen : last < (g ++ [{ id := id, token := token }] : Graph).length := by simp; omega
  have hnode (w : ℕ) := Graph.node_append g { id := id, token := token } w
  have happ : descend (g ++ [{ id := id, token := token }]) v t = descend g v t := by
    by_cases hv : v = g.length
    · rw [descend_of_le g (by omega) t]
      simp [descend, hnode, hv]
    · apply descend_congr
      · simp [hnode, hv]
      · simp [hnode, hv]
      · intro u hu
        have := (hg.older v u (Or.inl hu)).2
        simp [hnode, Nat.ne_of_lt this]
  rw [prepared]
  split
  · rename_i h
    rw [descend_splitVertex tp _ hlen h.1, happ]
  · exact happ

include hl in
lemma isChild_of_prepared {v u : ℕ} (h : IsChild (prepared tp g id last token) v u) :
    IsChild g v u := by
  have hlen : last < (g ++ [{ id := id, token := token }] : Graph).length := by simp; omega
  have happ (h : IsChild (g ++ [{ id := id, token := token }]) v u) : IsChild g v u := by
    by_cases hv : v = g.length
    · simp [IsChild, Graph.node_append, hv] at h
    · simpa [IsChild, Graph.node_append, hv] using h
  rw [prepared] at h
  split at h
  · exact happ (isChild_of_splitVertex tp _ hlen h)
  · exact happ h

lemma addChild_eq :
    addChild tp g id last token =
      match ((prepared tp g id last token).node last).subtree with
      | some s => (prepared tp g id last token).setSubtree last (s.insertNew token g.length)
      | none => (prepared tp g id last token).addEdge last g.length := rfl

include hl in
lemma addChild_node :
    (addChild tp g id last token).length = g.length + 1 ∧
      ∀ w, ((addChild tp g id last token).node w).id =
          (if w = g.length then id else (g.node w).id) ∧
        ((addChild tp g id last token).node w).token =
          (if w = g.length then token else (g.node w).token) := by
  obtain ⟨hn, hs⟩ := prepared_node tp hl id token
  have hlast : last < (prepared tp g id last token).length := by omega
  rw [addChild_eq]
  split
  · refine ⟨by simpa [Graph.setSubtree] using hn, fun w => ?_⟩
    rw [Graph.setSubtree, Graph.node_modify _ _ _ _ hlast, ← (hs w).1, ← (hs w).2]
    by_cases hw : w = last <;> simp [hw]
  · refine ⟨by simpa [Graph.addEdge] using hn, fun w => ?_⟩
    rw [Graph.addEdge, Graph.node_modify _ _ _ _ hlast, ← (hs w).1, ← (hs w).2]
    by_cases hw : w = last <;> simp [hw]

include hg hl in
lemma descend_addChild (v t : ℕ) :
    descend (addChild tp g id last token) v t =
      if v = last then (descend g last t).or (if token = t then some g.length else none)
      else descend g v t := by
  obtain ⟨hn, hs⟩ := prepared_node tp hl id token
  have hlast : last < (prepared tp g id last token).length := by omega
  have hd := descend_prepared tp hg hl id token
  rw [addChild_eq]
  split
  · rename_i s hsub
    have hnode (w : ℕ) := Graph.node_modify (prepared tp g id last token) last w
      (fun n => { n with subtree := some (s.insertNew token g.length) }) hlast
    by_cases hv : v = last
    · subst hv
      rw [if_pos rfl, ← hd v t]
      simp [descend, Graph.setSubtree, hnode, hsub, Subtree.lookup_insertNew]
    · rw [if_neg hv, ← hd v t]
      apply descend_congr
      · simp [Graph.setSubtree, hnode, hv]
      · simp [Graph.setSubtree, hnode, hv]
      · intro u _
        by_cases hu : u = last <;> simp [Graph.setSubtree, hnode, hu]
  · rename_i hsub
    have hnode (w : ℕ) := Graph.node_modify (prepared tp g id last token) last w
      (fun n => { n with outEdges := n.outEdges ++ [g.length] }) hlast
    have htoken (u : ℕ) : (((prepared tp g id last token).addEdge last g.length).node u).token =
        ((prepared tp g id last token).node u).token := by
      rw [Graph.addEdge, hnode]
      by_cases hu : u = last <;> simp [hu]
    by_cases hv : v = last
    · subst hv
      rw [if_pos rfl, ← hd v t]
      simp only [descend, htoken, hsub]
      simp [Graph.addEdge, hnode, hsub, List.find?_append, (hs g.length).2]
    · rw [if_neg hv, ← hd v t]
      apply descend_congr
      · simp [Graph.addEdge, hnode, hv]
      · simp [Graph.addEdge, hnode, hv]
      · intro u _
        exact htoken u

include hl in
lemma isChild_of_addChild {v u : ℕ} (h : IsChild (addChild tp g id last token) v u) :
    IsChild g v u ∨ (v = last ∧ u = g.length) := by
  obtain ⟨hn, _⟩ := prepared_node tp hl id token
  have hlast : last < (prepared tp g id last token).length := by omega
  rw [addChild_eq] at h
  split at h
  · rename_i s hsub
    rw [IsChild, Graph.setSubtree, Graph.node_modify _ _ _ _ hlast] at h
    by_cases hv : v = last
    · subst hv
      simp only [↓reduceIte, Option.some.injEq] at h
      rcases h with h | ⟨_, t, rfl, h⟩
      · exact Or.inl (isChild_of_prepared tp hl id token (Or.inl h))
      · rw [Subtree.lookup_insertNew, Option.or_eq_some_iff] at h
        rcases h with h | ⟨_, h⟩
        · exact Or.inl (isChild_of_prepared tp hl id token (Or.inr ⟨s, t, hsub, h⟩))
        · right
          split at h <;> simp_all
    · rw [if_neg hv] at h
      exact Or.inl (isChild_of_prepared tp hl id token h)
  · rw [IsChild, Graph.addEdge, Graph.node_modify _ _ _ _ hlast] at h
    by_cases hv : v = last
    · subst hv
      simp only [↓reduceIte, List.mem_append, List.mem_singleton] at h
      rcases h with (h | h) | ⟨s, t, hs, h⟩
      · exact Or.inl (isChild_of_prepared tp hl id token (Or.inl h))
      · exact Or.inr ⟨rfl, h⟩
      · exact Or.inl (isChild_of_prepared tp hl id token (Or.inr ⟨s, t, hs, h⟩))
    · rw [if_neg hv] at h
      exact Or.inl (isChild_of_prepared tp hl id token h)

lemma addChild_ordered (hg : g.Ordered) (hl : last < g.length) (token : ℕ) :
    (addChild tp g g.length last token).Ordered := by
  obtain ⟨hn, hs⟩ := addChild_node tp hl g.length token
  refine ⟨fun v hv => ?_, fun v u h => ?_, fun v s t u hsub hlookup => ?_⟩
  · rw [(hs v).1]
    split
    · rename_i h
      exact h.symm
    · exact hg.id_eq v (by omega)
  · rcases isChild_of_addChild tp hl g.length token h with h | ⟨rfl, rfl⟩
    · have := hg.older v u h
      omega
    · omega
  · have hd : descend (addChild tp g g.length last token) v t = some u := by
      simp only [descend, hsub, hlookup]
    have old (h : descend g v t = some u) :
        ((addChild tp g g.length last token).node u).token = t := by
      obtain ⟨hc, ht⟩ := hg.isChild_of_descend h
      rw [(hs u).2, if_neg (by have := (hg.older v u hc).2; omega), ht]
    rw [descend_addChild tp hg hl] at hd
    split at hd
    · rename_i hv
      rcases Option.or_eq_some_iff.mp hd with h | ⟨_, h⟩
      · exact old (hv ▸ h)
      · split at h
        · rename_i ht
          obtain rfl : g.length = u := by simpa using h
          rw [(hs _).2, if_pos rfl, ht]
        · cases h
    · exact old hd

lemma addChild_adds (hg : g.Ordered) (hl : last < g.length) {token : ℕ}
    (hfree : descend g last token = none) (id : ℕ) :
    Adds (descend g) (descend (addChild tp g id last token)) last token g.length where
  free := hfree
  fresh := by omega
  noExit t := descend_of_le g (by omega) t
  noEntry v t h := by
    have := (hg.older v _ (hg.isChild_of_descend h).1).2
    omega
  added := by simp [descend_addChild tp hg hl, hfree]
  same v t h := by
    rw [descend_addChild tp hg hl]
    by_cases hv : v = last
    · subst hv
      have ht : token ≠ t := fun he => h ⟨rfl, he.symm⟩
      simp [ht]
    · simp [hv]

def addChain (g : Graph) (id last : ℕ) : List ℕ → Graph
  | [] => g
  | token :: tokens => addChain (addChild tp g id last token) (id + 1) g.length tokens

lemma addChain_length (hl : last < g.length) (id : ℕ) (tokens : List ℕ) :
    (addChain tp g id last tokens).length = g.length + tokens.length := by
  induction tokens generalizing g id last with
  | nil => rfl
  | cons t ts ih =>
    obtain ⟨hn, _⟩ := addChild_node tp hl id t
    rw [addChain, ih (by omega), hn, List.length_cons]
    omega

lemma addChain_ordered (hg : g.Ordered) (hl : last < g.length) (tokens : List ℕ) :
    (addChain tp g g.length last tokens).Ordered := by
  induction tokens generalizing g last with
  | nil => exact hg
  | cons t ts ih =>
    obtain ⟨hn, _⟩ := addChild_node tp hl g.length t
    have hlast : g.length < (addChild tp g g.length last t).length := by omega
    have hh := ih (addChild_ordered tp hg hl t) hlast
    rwa [hn] at hh

lemma addChain_token (hl : last < g.length) (id : ℕ) (tokens : List ℕ) {u : ℕ}
    (hu : u < g.length) : ((addChain tp g id last tokens).node u).token = (g.node u).token := by
  induction tokens generalizing g id last with
  | nil => rfl
  | cons t ts ih =>
    obtain ⟨hn, hs⟩ := addChild_node tp hl id t
    rw [addChain, ih (by omega) _ (by omega), (hs u).2, if_neg (by omega)]

lemma addChain_new_token (hl : last < g.length) (id : ℕ) (tokens : List ℕ) {k token : ℕ}
    (hk : tokens[k]? = some token) :
    ((addChain tp g id last tokens).node (g.length + k)).token = token := by
  induction tokens generalizing g id last k with
  | nil => simp at hk
  | cons t ts ih =>
    obtain ⟨hn, hs⟩ := addChild_node tp hl id t
    have hlast : g.length < (addChild tp g id last t).length := by omega
    rw [addChain]
    cases k with
    | zero =>
      have htoken := addChain_token tp hlast (id + 1) ts hlast
      rw [(hs _).2, if_pos rfl] at htoken
      exact htoken.trans (by simpa using hk)
    | succ k =>
      have hh := ih hlast (id + 1) (by simpa using hk)
      rwa [hn, show g.length + 1 + k = g.length + (k + 1) by omega] at hh

lemma descend_addChain (hg : g.Ordered) (hl : last < g.length) (tokens : List ℕ) {v t u : ℕ}
    (h : descend g v t = some u) : descend (addChain tp g g.length last tokens) v t = some u := by
  induction tokens generalizing g last with
  | nil => exact h
  | cons s ts ih =>
    obtain ⟨hn, _⟩ := addChild_node tp hl g.length s
    have hlast : g.length < (addChild tp g g.length last s).length := by omega
    have hd : descend (addChild tp g g.length last s) v t = some u := by
      rw [descend_addChild tp hg hl]
      by_cases hv : v = last
      · simp [← hv, h]
      · simp [hv, h]
    have hh := ih (addChild_ordered tp hg hl s) hlast hd
    rwa [hn] at hh

def chainParent (n last : ℕ) : ℕ → ℕ
  | 0 => last
  | j + 1 => n + j

lemma isChild_of_addChain (hl : last < g.length) (id : ℕ) (tokens : List ℕ) {v u : ℕ}
    (h : IsChild (addChain tp g id last tokens) v u) :
    IsChild g v u ∨ ∃ j < tokens.length, u = g.length + j ∧ v = chainParent g.length last j := by
  induction tokens generalizing g id last with
  | nil => exact Or.inl h
  | cons t ts ih =>
    obtain ⟨hn, _⟩ := addChild_node tp hl id t
    rcases ih (g := addChild tp g id last t) (by omega) _ h with h' | ⟨j, hj, hu, hv⟩
    · rcases isChild_of_addChild tp hl id t h' with h'' | ⟨rfl, rfl⟩
      · exact Or.inl h''
      · exact Or.inr ⟨0, by simp, rfl, rfl⟩
    · refine Or.inr ⟨j + 1, by simpa using hj, by omega, ?_⟩
      cases j with
      | zero => simpa [chainParent] using hv
      | succ j =>
        simp only [chainParent] at hv ⊢
        omega

lemma descend_addChain_new (hg : g.Ordered) (hl : last < g.length) (tokens : List ℕ)
    (hfree : ∀ t ∈ tokens.head?, descend g last t = none) {j token : ℕ}
    (hj : tokens[j]? = some token) :
    descend (addChain tp g g.length last tokens) (chainParent g.length last j) token =
      some (g.length + j) := by
  induction tokens generalizing g last j with
  | nil => simp at hj
  | cons t ts ih =>
    obtain ⟨hn, _⟩ := addChild_node tp hl g.length t
    have hlast : g.length < (addChild tp g g.length last t).length := by omega
    have hg' := addChild_ordered tp hg hl t
    have ha := addChild_adds tp hg hl (hfree t rfl) g.length
    cases j with
    | zero =>
      obtain rfl : t = token := by simpa using hj
      have hh := descend_addChain tp hg' hlast ts ha.added
      rwa [hn] at hh
    | succ j =>
      have hh := ih hg' hlast (fun s _ => ha.new_noExit s)
        (by simpa using hj)
      rw [hn] at hh
      have hp : chainParent (g.length + 1) g.length j = chainParent g.length last (j + 1) := by
        cases j with
        | zero => rfl
        | succ j =>
          simp only [chainParent]
          omega
      rw [hp, show g.length + 1 + j = g.length + (j + 1) by omega] at hh
      exact hh

def chain (n : ℕ) (tokens : List ℕ) : List (ℕ × ℕ) :=
  tokens.zip (List.range' n tokens.length)

lemma chain_cons (n t : ℕ) (ts : List ℕ) : chain n (t :: ts) = (t, n) :: chain (n + 1) ts := by
  simp [chain, List.range'_succ]

lemma addChain_grows (hg : g.Ordered) (hl : last < g.length) (tokens : List ℕ)
    (hfree : ∀ t ∈ tokens.head?, descend g last t = none) :
    Grows (descend g) last (chain g.length tokens)
      (descend (addChain tp g g.length last tokens)) := by
  induction tokens generalizing g last with
  | nil => exact .nil
  | cons t ts ih =>
    obtain ⟨hn, _⟩ := addChild_node tp hl g.length t
    have hlast : g.length < (addChild tp g g.length last t).length := by omega
    have ha := addChild_adds tp hg hl (hfree t rfl) g.length
    have hh := ih (addChild_ordered tp hg hl t) hlast
      (fun s _ => ha.new_noExit s)
    rw [chain_cons]
    rw [hn] at hh
    exact .cons ha hh

end Split

end WordModel.ContextTree
