import WordModel.ContextTree.Requests

/-! Tokens in use are below the next one to be given out, so an element seen for the
first time has no child anywhere. -/

namespace WordModel.ContextTree

open Checked Follow

variable {DataType ContextData : Type}

section Tokens

variable [DecidableEq DataType]

structure Tokens.Bounded (tk : Tokens DataType) : Prop where
  positive : 0 < tk.tokenNumber
  map : ∀ c n, tk.dataMap.lookup c = some n → n < tk.tokenNumber

namespace Tokens.Bounded

variable {tk : Tokens DataType} (h : tk.Bounded)

include h

lemma number (c : DataType) : (tk.number c).Bounded where
  positive := by simp [Tokens.number]
  map d n hd := by
    simp only [Tokens.number] at hd ⊢
    by_cases he : d = c
    · subst he
      rw [AList.lookup_insert] at hd
      obtain rfl := Option.some.inj hd
      omega
    · rw [AList.lookup_insert_ne he] at hd
      have := h.map d n hd
      omega

lemma index (c : DataType) :
    (tk.index c).1 < tk.tokenNumber ∧ (tk.index c).2.Bounded ∧
      (tk.index c).2.tokenNumber = tk.tokenNumber := by
  rw [Tokens.index]
  split
  · rename_i n hn
    exact ⟨h.map c n hn, h, rfl⟩
  · refine ⟨h.positive, ⟨h.positive, ?_⟩, rfl⟩
    intro d n hd
    by_cases he : d = c
    · subst he
      rw [AList.lookup_insert] at hd
      obtain rfl := Option.some.inj hd
      exact h.positive
    · rw [AList.lookup_insert_ne he] at hd
      exact h.map d n hd

lemma indexAll (cs : List DataType) :
    (∀ n ∈ (tk.indexAll cs).1, n < tk.tokenNumber) ∧ (tk.indexAll cs).2.Bounded ∧
      (tk.indexAll cs).2.tokenNumber = tk.tokenNumber := by
  induction cs generalizing tk with
  | nil => exact ⟨by simp [Tokens.indexAll], h, rfl⟩
  | cons c cs ih =>
    obtain ⟨hlt, hb, hn⟩ := h.index c
    obtain ⟨hlt', hb', hn'⟩ := ih hb
    refine ⟨?_, hb', hn'.trans hn⟩
    rw [hn] at hlt'
    simpa only [Tokens.indexAll, List.forall_mem_cons] using ⟨hlt, hlt'⟩

lemma missedTokens (c : DataType) (cs : List DataType) :
    (∀ n ∈ (missedTokens tk c cs).1, n < (missedTokens tk c cs).2.tokenNumber) ∧
      (missedTokens tk c cs).2.Bounded ∧
      tk.tokenNumber ≤ (missedTokens tk c cs).2.tokenNumber := by
  rw [ContextTree.missedTokens]
  split
  · obtain ⟨hlt, hb, hn⟩ := (h.number c).indexAll (c :: cs)
    rw [hn]
    exact ⟨hlt, hb, by simp [Tokens.number]⟩
  · obtain ⟨hlt, hb, hn⟩ := h.indexAll (c :: cs)
    rw [hn]
    exact ⟨hlt, hb, le_rfl⟩

end Tokens.Bounded

lemma missedTokens_head (tk : Tokens DataType) (c : DataType) (cs : List DataType) :
    (missedTokens tk c cs).1.head? = some ((tk.dataMap.lookup c).getD tk.tokenNumber) := by
  rw [missedTokens]
  cases hc : tk.dataMap.lookup c with
  | none => simp [Tokens.indexAll, Tokens.index, Tokens.number]
  | some n => simp [Tokens.indexAll, Tokens.index, hc]

lemma Tokens.mem_index {tk : Tokens DataType} {c d : DataType} (h : d ∈ (tk.index c).2.dataMap) :
    d ∈ tk.dataMap ∨ d = c := by
  cases hc : tk.dataMap.lookup c with
  | some n =>
    rw [Tokens.index, hc] at h
    exact Or.inl h
  | none =>
    rw [Tokens.index, hc] at h
    exact (AList.mem_insert _).mp h |>.symm

lemma Tokens.mem_indexAll {tk : Tokens DataType} {cs : List DataType} {d : DataType}
    (h : d ∈ (tk.indexAll cs).2.dataMap) : d ∈ tk.dataMap ∨ d ∈ cs := by
  induction cs generalizing tk with
  | nil => exact Or.inl h
  | cons c cs ih =>
    rcases ih h with h' | h'
    · rcases Tokens.mem_index h' with h'' | rfl
      · exact Or.inl h''
      · exact Or.inr (by simp)
    · exact Or.inr (by simp [h'])

lemma mem_missedTokens {tk : Tokens DataType} {c d : DataType} {cs : List DataType}
    (h : d ∈ (missedTokens tk c cs).2.dataMap) : d ∈ tk.dataMap ∨ d ∈ c :: cs := by
  cases hc : tk.dataMap.lookup c with
  | some n =>
    rw [missedTokens, hc] at h
    exact Tokens.mem_indexAll h
  | none =>
    rw [missedTokens, hc] at h
    rcases Tokens.mem_indexAll h with h' | h'
    · rcases (AList.mem_insert _).mp h' with rfl | h''
      · exact Or.inr (by simp)
      · exact Or.inl h''
    · exact Or.inr h'

end Tokens

variable [DecidableEq DataType]

lemma Predicted.mem_dataMap {t t' : ContextTree DataType ContextData} {dataFrag : List DataType}
    {contextId : ℕ} {con : Context ContextData} (hp : Predicted t t' dataFrag contextId con)
    {d : DataType} (hd : d ∈ t'.tokens.dataMap) : d ∈ t.tokens.dataMap ∨ d ∈ dataFrag := by
  cases hm : t.matched dataFrag with
  | some u =>
    rw [(hp.reached u hm).2.2] at hd
    exact Or.inl hd
  | none =>
    obtain ⟨c, rest, last, hdrop, _, _, _, _, _, htk⟩ := hp.missed hm
    rw [htk] at hd
    rcases mem_missedTokens hd with h | h
    · exact Or.inl h
    · rw [← hdrop] at h
      exact Or.inr (List.mem_reverse.mp (List.mem_of_mem_drop h))

structure Numbered (t : ContextTree DataType ContextData) : Prop where
  tokens : t.tokens.Bounded
  tree : ∀ v, v < t.tree.length → (t.tree.node v).token < t.tokens.tokenNumber
  noted : ∀ contextId ∈ t.activeIds, ∀ con, t.contexts[contextId]? = some con →
    ∀ path, Recorded t.tree con path →
      ∀ n ∈ (con.additions.drop path.length).take con.additionSize, n < t.tokens.tokenNumber

lemma fresh_numbered (data : ContextData) (maxContexts : ℕ) :
    (fresh data maxContexts : ContextTree DataType ContextData).Numbered where
  tokens := ⟨by simp [fresh], by simp [fresh]⟩
  tree v hv := by
    obtain rfl : v = 0 := by simpa [fresh] using hv
    simp [fresh, Graph.node, rootToken]
  noted := by simp [fresh]

lemma newTokens_subset {con : Context ContextData} (index : ℕ) (depth : ℤ) {n : ℕ}
    (h : n ∈ newTokens con index depth) :
    n ∈ (con.additions.drop index).take con.additionSize := by
  have hp := List.take_prefix_take_left (l := con.additions.drop index)
    (additionRounds_le index depth con.additionSize)
  exact hp.subset h

lemma Predicted.numbered {t t' : ContextTree DataType ContextData} {dataFrag : List DataType}
    {contextId : ℕ} {con : Context ContextData} (h : t.Sound) (hn : t.Numbered)
    (hp : Predicted t t' dataFrag contextId con) : t'.Numbered := by
  have hrecorded := hp.recorded h
  have htokens : t'.tokens.Bounded ∧ t.tokens.tokenNumber ≤ t'.tokens.tokenNumber ∧
      ∀ n ∈ (con.additions.drop (t.settlePath dataFrag).length).take con.additionSize,
        n < t'.tokens.tokenNumber := by
    cases hm : t.matched dataFrag with
    | some u =>
      obtain ⟨_, hsize, htk⟩ := hp.reached u hm
      rw [htk, hsize]
      exact ⟨hn.tokens, le_rfl, by simp⟩
    | none =>
      obtain ⟨c, rest, last, _, _, _, _, hsize, hadd, htk⟩ := hp.missed hm
      obtain ⟨hb, hb', hle⟩ := hn.tokens.missedTokens c rest
      rw [settlePath, if_pos hm, hsize, hadd, htk]
      exact ⟨hb', hle, hb⟩
  obtain ⟨hb, hle, hnoted⟩ := htokens
  have htree : t'.tree = t.tree := by rw [hp.same]
  refine ⟨hb, fun v hv => ?_, ?_⟩
  · rw [htree] at hv ⊢
    exact (hn.tree v hv).trans_le hle
  · intro i hi con' hget path hr n hmem
    rw [htree] at hr
    rcases hp.active_cases h hi hget with ⟨_, rfl⟩ | ⟨_, hi, hget⟩
    · obtain rfl := hrecorded.unique hr
      exact hnoted n hmem
    · exact (hn.noted i hi con' hget path hr n hmem).trans_le hle

lemma Predicted.free {t t' : ContextTree DataType ContextData} {dataFrag : List DataType}
    {contextId : ℕ} {con : Context ContextData} (h : t.Sound) (hn : t.Numbered)
    (hp : Predicted t t' dataFrag contextId con) (hm : t.matched dataFrag = none) (depth : ℤ) :
    ∀ n ∈ (newTokens con (t.settlePath dataFrag).length depth).head?,
      descend t.tree con.leaf n = none := by
  intro n hhead
  obtain ⟨c, rest, last, _, _, hnext, hleaf, hsize, hadd, _⟩ := hp.missed hm
  have htoken : n = (t.tokens.dataMap.lookup c).getD t.tokens.tokenNumber := by
    have hw : (newTokens con (t.settlePath dataFrag).length depth) <+:
        (missedTokens t.tokens c rest).1 := by
      rw [settlePath, if_pos hm, ← hadd, ← hsize]
      exact List.take_prefix_take_left (additionRounds_le _ _ _)
    have hh := missedTokens_head t.tokens c rest
    obtain ⟨post, hpost⟩ := hw
    rw [← hpost, List.head?_append, hhead, Option.some_or, Option.some.injEq] at hh
    exact hh
  rw [hleaf, htoken]
  cases hc : t.tokens.dataMap.lookup c with
  | some m => simpa [nextVertex, hc] using hnext
  | none =>
    rw [Option.getD_none]
    by_contra hd
    obtain ⟨u, hu⟩ := Option.ne_none_iff_exists'.mp hd
    obtain ⟨hchild, htok⟩ := h.ordered.isChild_of_descend hu
    have := hn.tree u (h.ordered.older _ _ hchild).2
    omega

lemma settled_numbered (tp : Template) {t : ContextTree DataType ContextData} (h : t.Sound)
    (hn : t.Numbered) {contextId : ℕ} (ha : contextId ∈ t.activeIds)
    {con : Context ContextData} (hc : t.contexts[contextId]? = some con) {path : List ℕ}
    (hr : Recorded t.tree con path) (depth : ℤ) :
    (settled tp t contextId con path depth).Numbered := by
  have hl := settled_length tp hr contextId depth
  refine ⟨hn.tokens, fun v hv => ?_, ?_⟩
  · change ((addChain tp t.tree t.vertexNumber con.leaf _).node v).token < t.tokens.tokenNumber
    by_cases hlt : v < t.tree.length
    · rw [addChain_token tp hr.leaf_lt _ _ hlt]
      exact hn.tree v hlt
    · obtain ⟨k, rfl⟩ := Nat.exists_eq_add_of_le (not_lt.mp hlt)
      have hk := List.getElem?_eq_getElem (l := newTokens con path.length depth) (i := k) (by omega)
      rw [addChain_new_token tp hr.leaf_lt _ _ hk]
      exact hn.noted contextId ha con hc path hr _
        (newTokens_subset _ _ (List.mem_of_getElem? hk))
  · intro i hi con' hget path' hr' n hmem
    obtain ⟨_, hi, hget⟩ := settled_active_cases tp h hi hget
    obtain ⟨path'', hr''⟩ := h.recorded i hi con' hget
    have hle : t.tree.length ≤ (settled tp t contextId con path depth).tree.length := by omega
    obtain rfl := (hr''.mono hle).unique hr'
    exact hn.noted i hi con' hget _ hr'' n hmem

lemma Served.numbered {tp : Template} {t t' : ContextTree DataType ContextData}
    {r : Request DataType} (h : Served tp t r t') (ht : t.Sound) (hn : t.Numbered) :
    t'.Numbered := by
  cases h with
  | predicted hp => exact hp.numbered ht hn
  | rejected => exact hn
  | settled _ ha hc hr => exact settled_numbered tp ht hn ha hc hr _

lemma SameButData.numbered {t t' : ContextTree DataType ContextData} (h : SameButData t t')
    (hn : t.Numbered) : t'.Numbered := by
  cases h with
  | refl => exact hn
  | setData contextId data =>
    refine ⟨hn.tokens, hn.tree, ?_⟩
    intro i hi con' hget path hr n hmem
    rw [setData_getElem?, Option.map_eq_some_iff] at hget
    obtain ⟨con, hcon, rfl⟩ := hget
    by_cases he : contextId = i
    · rw [if_pos he] at hr hmem
      exact hn.noted i hi con hcon path ⟨hr.ids, hr.rooted, hr.sorted, hr.valid, hr.leaf, hr.room⟩ n hmem
    · rw [if_neg he] at hr hmem
      exact hn.noted i hi con hcon path hr n hmem

lemma Reached.numbered {tp : Template} {M : Type} {visitor : Visitor M ContextData}
    {guard : ContextTree DataType ContextData × M → Request DataType → Prop}
    {data : ContextData} {maxContexts : ℕ} (hM : 0 < maxContexts) {m : M}
    {requests : List (Request DataType)} {s : ContextTree DataType ContextData × M}
    (h : Reached tp visitor guard data maxContexts m requests s) : s.1.Numbered := by
  refine (Runs.Run.invariant (P := fun s => s.1.Sound ∧ s.1.Numbered) h ?_
    ⟨fresh_sound data hM, fresh_numbered data maxContexts⟩).2
  rintro s r s' ⟨hs, hn⟩ _ he
  obtain ⟨t, ht, hd⟩ := hs.served tp visitor he
  exact ⟨hd.sound (ht.sound hs), hd.numbered (ht.numbered hs hn)⟩

end WordModel.ContextTree
