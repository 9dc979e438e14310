import WordModel.ContextTree.Numbering

/-! How deep the vertices lie: no deeper than the fragments seen so far are long, and
above the depth that every settlement is given. -/

namespace WordModel.ContextTree

open Checked Follow

variable {DataType ContextData : Type}

/-- `level` counts the vertices above; no fragment seen was longer than `most`. -/
structure Leveled (t : ContextTree DataType ContextData) (depth : ℤ) (most : ℕ)
    (level : ℕ → ℕ) : Prop where
  root : level 0 = 0
  child : ∀ v u, IsChild t.tree v u → level u = level v + 1
  shallow : ∀ v, v < t.tree.length → v ≠ 0 → (level v : ℤ) < depth ∧ level v ≤ most
  paths : ∀ contextId ∈ t.activeIds, ∀ con, t.contexts[contextId]? = some con →
    ∀ path, Recorded t.tree con path →
      (∀ k v, path[k]? = some v → level v = k) ∧ path.length + con.additionSize ≤ most + 1

lemma fresh_leveled (data : ContextData) (maxContexts : ℕ) (depth : ℤ) (most : ℕ) :
    Leveled (fresh data maxContexts : ContextTree DataType ContextData) depth most (fun _ => 0) where
  root := rfl
  child v u h := by
    exfalso
    cases v <;> simp [fresh, IsChild, Graph.node] at h
  shallow v hv hz := by
    simp [fresh] at hv
    omega
  paths := by simp [fresh]

lemma level_of_follow [DecidableEq DataType] {g : Graph} (hg : g.Ordered) {tk : Tokens DataType}
    {level : ℕ → ℕ} (hroot : level 0 = 0) (hchild : ∀ v u, IsChild g v u → level u = level v + 1)
    {cs : List DataType} {v : ℕ} (h : follow (nextVertex g tk) 0 cs = some v) :
    level v = cs.length := by
  induction cs using List.reverseRecOn generalizing v with
  | nil =>
    obtain rfl : 0 = v := by simpa using h
    exact hroot
  | append_singleton cs c ih =>
    rw [follow_concat, Option.bind_eq_some_iff] at h
    obtain ⟨u, hu, hv⟩ := h
    obtain ⟨token, _, hd⟩ := Option.bind_eq_some_iff.mp hv
    rw [hchild u v (hg.isChild_of_descend hd).1, ih hu, List.length_append, List.length_singleton]

section Predict

variable [DecidableEq DataType] {t t' : ContextTree DataType ContextData} {depth : ℤ} {most : ℕ}
  {level : ℕ → ℕ}

lemma Leveled.matched (h : Leveled t depth most level) (hs : t.Sound) {dataFrag : List DataType}
    (hlong : most < dataFrag.length ∨ depth ≤ dataFrag.length) :
    dataFrag = [] ∨ t.matched dataFrag = none := by
  by_contra hno
  obtain ⟨hne, hm⟩ := not_or.mp hno
  obtain ⟨u, hu⟩ := Option.ne_none_iff_exists'.mp hm
  have hfollow : follow (nextVertex t.tree t.tokens) 0 dataFrag.reverse = some u := by
    rw [← hs.root_eq]
    exact hu
  have hlevel := level_of_follow hs.ordered h.root h.child hfollow
  rw [List.length_reverse] at hlevel
  have hpos := List.length_pos_of_ne_nil hne
  have hu0 : u ≠ 0 := by
    rintro rfl
    rw [h.root] at hlevel
    omega
  have hlt : u < t.tree.length := by
    have hwalk : (t.visited dataFrag)[dataFrag.length]? = some u := by
      rw [ContextTree.visited, walk_getElem? _ _ _ _ (by simp), List.take_of_length_le (by simp)]
      exact hu
    exact hs.visited_lt dataFrag u (List.mem_of_getElem? hwalk)
  have hshallow := h.shallow u hlt hu0
  omega

lemma Leveled.predicted (h : Leveled t depth most level) (hs : t.Sound)
    {dataFrag : List DataType} {contextId : ℕ} {con : Context ContextData}
    (hp : Predicted t t' dataFrag contextId con) {most' : ℕ} (hle : most ≤ most')
    (hfrag : dataFrag.length ≤ most') : Leveled t' depth most' level := by
  have htree : t'.tree = t.tree := by rw [hp.same]
  refine ⟨h.root, by rw [htree]; exact h.child, ?_, ?_⟩
  · intro v hv hz
    rw [htree] at hv
    have := h.shallow v hv hz
    omega
  · intro i hi con' hget path hr
    rw [htree] at hr
    rcases hp.active_cases hs hi hget with ⟨_, rfl⟩ | ⟨_, hi, hget⟩
    · obtain rfl := (hp.recorded hs).unique hr
      by_cases hm : t.matched dataFrag = none
      · rw [settlePath, if_pos hm]
        obtain ⟨c, rest, last, hdrop, _, _, _, hsize, _⟩ := hp.missed hm
        have hlen := congrArg List.length hdrop
        have hpos := walk_length_pos (nextVertex t.tree t.tokens) t.root dataFrag.reverse
        change 0 < (t.visited dataFrag).length at hpos
        simp only [List.length_drop, List.length_reverse, List.length_cons] at hlen
        refine ⟨fun k v hk => ?_, by omega⟩
        have hlt := (List.getElem?_eq_some_iff.mp hk).1
        have hk' : k ≤ dataFrag.reverse.length := by
          rw [List.length_reverse]
          omega
        rw [ContextTree.visited, walk_getElem? _ _ _ k hk', hs.root_eq] at hk
        rw [level_of_follow hs.ordered h.root h.child hk, List.length_take]
        omega
      · rw [settlePath, if_neg hm]
        obtain ⟨u, hu⟩ := Option.ne_none_iff_exists'.mp hm
        have hsize := (hp.reached u hu).2.1
        refine ⟨fun k v hk => ?_, by simp [hsize]⟩
        cases k with
        | zero =>
          obtain rfl : t.root = v := by simpa using hk
          rw [hs.root_eq]
          exact h.root
        | succ k => simp at hk
    · obtain ⟨hpath, hlen⟩ := h.paths i hi con' hget path hr
      exact ⟨hpath, by omega⟩

end Predict

variable {t : ContextTree DataType ContextData} {depth : ℤ} {most : ℕ} {level : ℕ → ℕ}

lemma Leveled.mono (h : Leveled t depth most level) {most' : ℕ} (hle : most ≤ most') :
    Leveled t depth most' level where
  root := h.root
  child := h.child
  shallow v hv hz := by
    have := h.shallow v hv hz
    omega
  paths i hi con hget path hr := by
    have := h.paths i hi con hget path hr
    exact ⟨this.1, by omega⟩

lemma Leveled.setData (h : Leveled t depth most level) (contextId : ℕ) (data : ContextData) :
    Leveled (t.setData contextId data) depth most level where
  root := h.root
  child := h.child
  shallow := h.shallow
  paths i hi con' hget path hr := by
    rw [setData_getElem?, Option.map_eq_some_iff] at hget
    obtain ⟨con, hcon, rfl⟩ := hget
    by_cases he : contextId = i
    · rw [if_pos he] at hr ⊢
      exact h.paths i hi con hcon path
        ⟨hr.ids, hr.rooted, hr.sorted, hr.valid, hr.leaf, hr.room⟩
    · rw [if_neg he] at hr ⊢
      exact h.paths i hi con hcon path hr

lemma Leveled.settled (h : Leveled t depth most level) (hs : t.Sound) (tp : Template)
    {contextId : ℕ} (ha : contextId ∈ t.activeIds) {con : Context ContextData}
    (hc : t.contexts[contextId]? = some con) {path : List ℕ} (hr : Recorded t.tree con path)
    {d : ℤ} (hd : d ≤ depth) :
    ∃ level', Leveled (settled tp t contextId con path d) depth most level' := by
  obtain ⟨hpath, hmost⟩ := h.paths contextId ha con hc path hr
  have htree : (ContextTree.settled tp t contextId con path d).tree =
      addChain tp t.tree t.tree.length con.leaf (newTokens con path.length d) := by
    simp [ContextTree.settled, deactivateContext, hs.vertexNumber]
  have hlen := addChain_length tp hr.leaf_lt t.tree.length (newTokens con path.length d)
  have hnew := hr.newTokens_length d
  have hpos := hr.length_pos
  have hrounds : (newTokens con path.length d).length ≤ con.additionSize ∧
      (0 < (newTokens con path.length d).length →
        ((path.length + (newTokens con path.length d).length : ℕ) : ℤ) ≤ depth) := by
    rw [hnew, additionRounds]
    split <;> omega
  have hleaf : level con.leaf = path.length - 1 :=
    hpath (path.length - 1) con.leaf (by rw [← List.getLast?_eq_getElem?]; exact hr.leaf)
  refine ⟨fun v => if v < t.tree.length then level v else path.length + (v - t.tree.length), ?_,
    ?_, ?_, ?_⟩
  · simp [hs.nonempty, h.root]
  · intro v u hchild
    rw [htree] at hchild
    rcases isChild_of_addChain tp hr.leaf_lt _ _ hchild with hold | ⟨j, _, rfl, rfl⟩
    · have hlt := hs.ordered.older v u hold
      rw [if_pos hlt.2, if_pos (hlt.1.trans hlt.2)]
      exact h.child v u hold
    · have hlast := hr.leaf_lt
      cases j with
      | zero =>
        rw [chainParent, if_neg (by omega), if_pos hlast, hleaf]
        omega
      | succ j =>
        rw [chainParent, if_neg (by omega), if_neg (by omega)]
        omega
  · intro v hv hz
    rw [htree, hlen] at hv
    by_cases hlt : v < t.tree.length
    · rw [if_pos hlt]
      exact h.shallow v hlt hz
    · rw [if_neg hlt]
      omega
  · intro i hi con' hget path' hr'
    obtain ⟨_, hi, hget⟩ := settled_active_cases tp hs hi hget
    obtain ⟨path'', hr''⟩ := hs.recorded i hi con' hget
    have hle : t.tree.length ≤ (ContextTree.settled tp t contextId con path d).tree.length := by
      rw [htree, hlen]
      omega
    obtain rfl := (hr''.mono hle).unique hr'
    obtain ⟨hpath', hmost'⟩ := h.paths i hi con' hget _ hr''
    refine ⟨fun k v hk => ?_, hmost'⟩
    rw [if_pos (hr''.valid v (List.mem_of_getElem? hk))]
    exact hpath' k v hk

end WordModel.ContextTree
