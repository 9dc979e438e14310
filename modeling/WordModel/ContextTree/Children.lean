import WordModel.ContextTree.Feedback

/-! The graph as a tree: siblings differ in their tokens and every vertex is found from
the root, as long as no prediction is settled whose addition has been made meanwhile. -/

namespace WordModel.ContextTree

open Checked Follow

variable {DataType ContextData : Type}

inductive TokenPath (g : Graph) (root : ℕ) : ℕ → List ℕ → Prop
  | root : TokenPath g root root []
  | child {v u ts} : TokenPath g root v ts → IsChild g v u →
      TokenPath g root u (ts ++ [(g.node u).token])

lemma Graph.Ordered.tokenPath_of_follow {g : Graph} (hg : g.Ordered) {root v : ℕ} {ts : List ℕ}
    (h : follow (descend g) root ts = some v) : TokenPath g root v ts := by
  induction ts using List.reverseRecOn generalizing v with
  | nil =>
    obtain rfl := Option.some.inj h
    exact .root
  | append_singleton ts t ih =>
    rw [follow_concat, Option.bind_eq_some_iff] at h
    obtain ⟨u, hu, hv⟩ := h
    obtain ⟨hchild, rfl⟩ := hg.isChild_of_descend hv
    exact (ih hu).child hchild

structure TreeLaw (g : Graph) (root : ℕ) : Prop where
  distinct : ∀ v u u', IsChild g v u → IsChild g v u' →
    (g.node u).token = (g.node u').token → u = u'
  hung : ∀ v, v < g.length → ∃ ts, TokenPath g root v ts
  reached : ∀ v, v < g.length → ∀ ts, TokenPath g root v ts →
    follow (descend g) root ts = some v

structure Graph.Wooded (g : Graph) : Prop where
  found : ∀ v u, IsChild g v u → descend g v (g.node u).token = some u
  hung : ∀ u, u < g.length → u ≠ 0 → ∃ v, IsChild g v u

namespace Graph.Wooded

variable {g : Graph} (hw : g.Wooded) (hg : g.Ordered)

include hw

lemma distinct {v u u' : ℕ} (hu : IsChild g v u) (hu' : IsChild g v u')
    (ht : (g.node u).token = (g.node u').token) : u = u' := by
  have h := hw.found v u hu
  rw [ht, hw.found v u' hu', Option.some.injEq] at h
  exact h.symm

lemma follow_of_tokenPath {root v : ℕ} {ts : List ℕ} (h : TokenPath g root v ts) :
    follow (descend g) root ts = some v := by
  induction h with
  | root => rfl
  | child _ hc ih => rw [follow_concat, ih, Option.bind_some, hw.found _ _ hc]

include hg

lemma exists_tokenPath (u : ℕ) (hu : u < g.length) : ∃ ts, TokenPath g 0 u ts := by
  induction u using Nat.strongRecOn with
  | _ u ih =>
    by_cases hz : u = 0
    · exact ⟨[], hz ▸ .root⟩
    · obtain ⟨v, hv⟩ := hw.hung u hu hz
      have hlt := hg.older v u hv
      obtain ⟨ts, hts⟩ := ih v hlt.1 (by omega)
      exact ⟨_, hts.child hv⟩

lemma treeLaw : TreeLaw g 0 :=
  ⟨fun _ _ _ => hw.distinct, hw.exists_tokenPath hg, fun _ _ _ => hw.follow_of_tokenPath⟩

variable (tp : Template) {last : ℕ} (hl : last < g.length) (tokens : List ℕ)

include hl in
lemma addChain (hfree : ∀ n ∈ tokens.head?, descend g last n = none) :
    (addChain tp g g.length last tokens).Wooded := by
  have hg' := addChain_ordered tp hg hl tokens
  have hlen := addChain_length tp hl g.length tokens
  refine ⟨fun v u hc => ?_, fun u hu hz => ?_⟩
  · rcases isChild_of_addChain tp hl _ tokens hc with hold | ⟨j, hj, rfl, rfl⟩
    · rw [addChain_token tp hl _ _ (hg.older v u hold).2]
      exact descend_addChain tp hg hl tokens (hw.found v u hold)
    · have hget := List.getElem?_eq_getElem hj
      rw [addChain_new_token tp hl _ _ hget]
      exact descend_addChain_new tp hg hl tokens hfree hget
  · by_cases hlt : u < g.length
    · obtain ⟨v, hv⟩ := hw.hung u hlt hz
      have hd := descend_addChain tp hg hl tokens (hw.found v u hv)
      exact ⟨v, (hg'.isChild_of_descend hd).1⟩
    · obtain ⟨j, rfl⟩ := Nat.exists_eq_add_of_le (not_lt.mp hlt)
      exact ⟨_, (isChild_addChain_iff tp hg hl tokens hfree (by omega) _).mpr rfl⟩

end Graph.Wooded

lemma not_treeLaw_addChain (tp : Template) {g : Graph} (hg : g.Ordered) {last : ℕ}
    (hl : last < g.length) {n u : ℕ} {tokens : List ℕ} (hn : tokens.head? = some n)
    (hd : descend g last n = some u) :
    ¬ TreeLaw (addChain tp g g.length last tokens) 0 := by
  intro h
  have hg' := addChain_ordered tp hg hl tokens
  have hget : tokens[0]? = some n := by rwa [← List.head?_eq_getElem?]
  have hpos : 0 < tokens.length := (List.getElem?_eq_some_iff.mp hget).1
  have hnew := addChain_new_token tp hl g.length tokens hget
  obtain ⟨hc, ht⟩ := hg'.isChild_of_descend (descend_addChain tp hg hl tokens hd)
  have hu := (hg.older last u (hg.isChild_of_descend hd).1).2
  obtain ⟨ts, hts⟩ := h.hung g.length (by rw [addChain_length tp hl]; omega)
  generalize hv : g.length = v at hts
  cases hts with
  | root => omega
  | @child p _ ts hp hpc =>
    subst hv
    rcases isChild_of_addChain tp hl _ tokens hpc with hold | ⟨j, _, hj, hpar⟩
    · have := (hg.older _ _ hold).2
      omega
    · obtain rfl : j = 0 := by omega
      rw [hpar] at hpc
      have := h.distinct last u g.length hc hpc (by rw [ht]; simpa using hnew.symm)
      omega

section Requests

variable [DecidableEq DataType]

/-- The token that settling the context adds first: that of `path[index]`, where `index` is
one past the leaf. -/
def Context.firstAddition (con : Context ContextData) (depth : ℤ) : Option ℕ :=
  (newTokens con (con.ids.idxOf con.leaf + 1) depth).head?

def Clear (t : ContextTree DataType ContextData) (contextId : ℕ) (depth : ℤ) : Prop :=
  ∀ con ∈ t.contexts[contextId]?, ∀ n ∈ con.firstAddition depth,
    descend t.tree con.leaf n = none

instance (t : ContextTree DataType ContextData) (contextId : ℕ) (depth : ℤ) :
    Decidable (Clear t contextId depth) :=
  inferInstanceAs (Decidable (∀ con ∈ t.contexts[contextId]?, _))

def Unobstructed (t : ContextTree DataType ContextData) : Request DataType → Prop
  | .predict _ => True
  | .regret contextId depth => Clear t contextId depth
  | .reinforce contextId depth => Clear t contextId depth

instance (t : ContextTree DataType ContextData) (r : Request DataType) :
    Decidable (Unobstructed t r) :=
  match r with
  | .predict _ => inferInstanceAs (Decidable True)
  | .regret contextId depth => inferInstanceAs (Decidable (Clear t contextId depth))
  | .reinforce contextId depth => inferInstanceAs (Decidable (Clear t contextId depth))

def UsesActive (t : ContextTree DataType ContextData) (r : Request DataType) : Prop :=
  ∀ contextId ∈ r.settles, contextId ∈ t.activeIds

instance (t : ContextTree DataType ContextData) (r : Request DataType) :
    Decidable (UsesActive t r) :=
  inferInstanceAs (Decidable (∀ contextId ∈ r.settles, _))

omit [DecidableEq DataType] in
lemma Recorded.firstAddition {g : Graph} {con : Context ContextData} {path : List ℕ}
    (h : Recorded g con path) (depth : ℤ) :
    con.firstAddition depth = (newTokens con path.length depth).head? := by
  have hidx : con.ids.idxOf con.leaf + 1 = path.length := by
    have hpre := h.ids
    obtain ⟨front, hfront⟩ : ∃ front, path = front ++ [con.leaf] :=
      ⟨path.dropLast, (List.dropLast_append_getLast? _ h.leaf).symm⟩
    obtain ⟨rest, hrest⟩ := hpre
    have hnot : con.leaf ∉ front := by
      intro hm
      have hs := h.sorted
      rw [hfront] at hs
      have := (List.pairwise_append.mp hs).2.2 _ hm con.leaf (by simp)
      omega
    rw [← hrest, hfront, List.append_assoc, List.idxOf_append_of_notMem hnot]
    simp
  rw [Context.firstAddition, hidx]

omit [DecidableEq DataType] in
lemma settled_treeLaw_iff (tp : Template) {t : ContextTree DataType ContextData} (h : t.Sound)
    (hw : t.tree.Wooded) {contextId : ℕ} {con : Context ContextData}
    (hc : t.contexts[contextId]? = some con) {path : List ℕ} (hr : Recorded t.tree con path)
    (depth : ℤ) :
    (Clear t contextId depth → (settled tp t contextId con path depth).tree.Wooded) ∧
      (TreeLaw (settled tp t contextId con path depth).tree 0 → Clear t contextId depth) := by
  have htree : (settled tp t contextId con path depth).tree =
      addChain tp t.tree t.tree.length con.leaf (newTokens con path.length depth) := by
    simp [settled, deactivateContext, h.vertexNumber]
  rw [htree]
  constructor
  · intro hclear
    refine hw.addChain h.ordered tp hr.leaf_lt _ (fun n hn => ?_)
    exact hclear con hc n (by rwa [hr.firstAddition])
  · intro hlaw con' hc' n hn
    obtain rfl : con = con' := by simpa [hc] using hc'
    rw [hr.firstAddition] at hn
    by_contra hd
    obtain ⟨u, hu⟩ := Option.ne_none_iff_exists'.mp hd
    exact not_treeLaw_addChain tp h.ordered hr.leaf_lt hn hu hlaw

lemma Served.treeLaw_iff {tp : Template} {t t' : ContextTree DataType ContextData}
    {r : Request DataType} (hs : Served tp t r t') (h : t.Sound) (hw : t.tree.Wooded)
    (ha : UsesActive t r) :
    (Unobstructed t r → t'.tree.Wooded) ∧ (TreeLaw t'.tree 0 → Unobstructed t r) := by
  cases hs with
  | predicted hp =>
    rw [hp.same]
    exact ⟨fun _ => hw, fun _ => trivial⟩
  | rejected hset hn => exact (hn (ha _ hset)).elim
  | settled hreq _ hc hr =>
    rcases hreq with rfl | rfl
    · exact settled_treeLaw_iff tp h hw hc hr _
    · exact settled_treeLaw_iff tp h hw hc hr _

omit [DecidableEq DataType] in
lemma SameButData.tree {t t' : ContextTree DataType ContextData} (h : SameButData t t') :
    t'.tree = t.tree := by
  cases h <;> rfl

omit [DecidableEq DataType] in
lemma fresh_wooded (data : ContextData) (maxContexts : ℕ) :
    (fresh data maxContexts : ContextTree DataType ContextData).tree.Wooded where
  found v u h := by
    exfalso
    cases v <;> simp [fresh, IsChild, Graph.node] at h
  hung u hu hz := by
    simp [fresh] at hu
    omega

variable (tp : Template) {M : Type} (visitor : Visitor M ContextData)

theorem children_law (data : ContextData) (maxContexts : ℕ) (hM : 1 ≤ maxContexts) (m : M)
    (requests : List (Request DataType)) (s : ContextTree DataType ContextData × M)
    (h : Reached tp visitor (fun s r => UsesActive s.1 r ∧ Unobstructed s.1 r) data maxContexts m
      requests s) :
    TreeLaw s.1.tree s.1.root ∧
      ∀ r s', UsesActive s.1 r → serve tp visitor s r = .ok s' →
        (TreeLaw s'.1.tree s'.1.root ↔ Unobstructed s.1 r) := by
  obtain ⟨hs, hw⟩ : s.1.Sound ∧ s.1.tree.Wooded := by
    refine Runs.Run.invariant (P := fun s => s.1.Sound ∧ s.1.tree.Wooded) h ?_
      ⟨fresh_sound data hM, fresh_wooded data maxContexts⟩
    rintro s r s' ⟨hs, hw⟩ ⟨ha, hu⟩ he
    obtain ⟨t, ht, hd⟩ := hs.served tp visitor he
    rw [hd.tree]
    exact ⟨hd.sound (ht.sound hs), (ht.treeLaw_iff hs hw ha).1 hu⟩
  refine ⟨hs.root_eq ▸ hw.treeLaw hs.ordered, fun r s' ha he => ?_⟩
  obtain ⟨t, ht, hd⟩ := hs.served tp visitor he
  have hs' := hd.sound (ht.sound hs)
  obtain ⟨hkeep, hbreak⟩ := ht.treeLaw_iff hs hw ha
  rw [hs'.root_eq]
  constructor
  · intro hlaw
    exact hbreak (hd.tree ▸ hlaw)
  · intro hu
    exact (hd.tree ▸ hkeep hu : s'.1.tree.Wooded).treeLaw hs'.ordered

theorem children_law_siblings : ∃ s : ContextTree ℕ Unit × Unit,
    TreeLaw s.1.tree s.1.root ∧ s.1.tree.length = 3 := by
  have h : Reached (.ofDefault fun _ _ _ => 0) .silent
      (fun s r => UsesActive s.1 r ∧ Unobstructed s.1 r) () 2 ()
      [.predict [7], .predict [8], .regret 0 5, .reinforce 1 5] _ :=
    .cons (by decide) rfl (.cons (by decide) rfl (.cons (by decide) rfl (.cons (by decide) rfl .nil)))
  exact ⟨_, (children_law _ .silent () 2 (by decide) () _ _ h).1, rfl⟩

theorem children_law_fails : ¬ ∀ (requests : List (Request ℕ)) (s : ContextTree ℕ Unit × Unit),
    Reached (.ofDefault fun _ _ _ => 0) .silent (fun s r => UsesActive s.1 r) () 2 () requests s →
    TreeLaw s.1.tree s.1.root := by
  intro h
  have hrun : Reached (.ofDefault fun _ _ _ => 0) .silent
      (fun s (r : Request ℕ) => UsesActive s.1 r) () 2 ()
      [.predict [7], .predict [7], .regret 0 5, .regret 1 5] _ :=
    .cons (by decide) rfl (.cons (by decide) rfl (.cons (by decide) rfl (.cons (by decide) rfl .nil)))
  have hlaw := (h _ _ hrun).distinct 0 1 2 (Or.inl (by decide)) (Or.inl (by decide)) rfl
  cases hlaw

end Requests

end WordModel.ContextTree
