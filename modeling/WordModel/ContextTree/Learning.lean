import WordModel.ContextTree.Children
import WordModel.Library.Unambiguous

/-! What a prediction that is settled next leaves in the tree: all that was visited, and
below it the rest of the fragment, as deep as the settlement may go. -/

namespace WordModel.ContextTree

open Checked Follow

variable {DataType ContextData : Type} [DecidableEq DataType]

def Tokens.Injective (tk : Tokens DataType) : Prop :=
  ∀ c d n, tk.dataMap.lookup c = some n → tk.dataMap.lookup d = some n → c = d

abbrev Tokens.Name (tk : Tokens DataType) : List DataType → List ℕ → Prop :=
  List.Forall₂ (fun c n => tk.dataMap.lookup c = some n)

lemma Tokens.exists_lookup {tk : Tokens DataType} {c : DataType} (h : c ∈ tk.dataMap) :
    ∃ n, tk.dataMap.lookup c = some n :=
  Option.isSome_iff_exists.mp (AList.lookup_isSome.mpr h)

lemma Tokens.indexAll_known {tk : Tokens DataType} {cs : List DataType}
    (h : ∀ c ∈ cs, c ∈ tk.dataMap) :
    tk.Name cs (tk.indexAll cs).1 ∧ (tk.indexAll cs).2 = tk := by
  induction cs with
  | nil => exact ⟨.nil, rfl⟩
  | cons c cs ih =>
    obtain ⟨n, hn⟩ := Tokens.exists_lookup (h c (by simp))
    have hc : tk.index c = (n, tk) := by rw [Tokens.index, hn]
    obtain ⟨hname, hsame⟩ := ih (fun d hd => h d (List.mem_cons_of_mem _ hd))
    simp only [Tokens.indexAll, hc]
    exact ⟨.cons hn hname, hsame⟩

lemma Tokens.number_lookup (tk : Tokens DataType) (c d : DataType) :
    (tk.number c).dataMap.lookup d =
      if d = c then some tk.tokenNumber else tk.dataMap.lookup d := by
  by_cases hd : d = c
  · subst hd
    simp [Tokens.number]
  · simp [Tokens.number, hd]

lemma missedTokens_known {tk : Tokens DataType} (c : DataType) {cs : List DataType}
    (h : ∀ d ∈ cs, d = c ∨ d ∈ tk.dataMap) :
    (missedTokens tk c cs).2.Name (c :: cs) (missedTokens tk c cs).1 ∧
      (missedTokens tk c cs).2 = if c ∈ tk.dataMap then tk else tk.number c := by
  cases hc : tk.dataMap.lookup c with
  | some n =>
    have hmem : c ∈ tk.dataMap := AList.lookup_isSome.mp (by rw [hc]; rfl)
    have hknown : ∀ d ∈ c :: cs, d ∈ tk.dataMap := List.forall_mem_cons.mpr ⟨hmem, fun d hd =>
      (h d hd).elim (fun he => he ▸ hmem) id⟩
    obtain ⟨hname, hsame⟩ := Tokens.indexAll_known hknown
    rw [missedTokens, hc]
    dsimp only
    rw [hsame, if_pos hmem]
    exact ⟨hname, rfl⟩
  | none =>
    have hmem : c ∉ tk.dataMap := AList.lookup_eq_none.mp hc
    have hnumber : ∀ d ∈ c :: cs, d ∈ (tk.number c).dataMap :=
      List.forall_mem_cons.mpr ⟨(AList.mem_insert _).mpr (Or.inl rfl),
        fun d hd => (AList.mem_insert _).mpr (h d hd)⟩
    obtain ⟨hname, hsame⟩ := Tokens.indexAll_known hnumber
    rw [missedTokens, hc]
    dsimp only
    rw [hsame, if_neg hmem]
    exact ⟨hname, rfl⟩

lemma Tokens.Bounded.number_injective {tk : Tokens DataType} (h : tk.Bounded)
    (hi : tk.Injective) (c : DataType) : (tk.number c).Injective := by
  intro d d' n hd hd'
  rw [Tokens.number_lookup] at hd hd'
  split at hd
  · rename_i he
    split at hd'
    · rename_i he'
      rw [he, he']
    · have := h.map d' n hd'
      rw [Option.some.injEq] at hd
      omega
  · split at hd'
    · have := h.map d n hd
      rw [Option.some.injEq] at hd'
      omega
    · exact hi d d' n hd hd'

lemma nextVertex_number {g : Graph} (hg : g.Ordered) {tk : Tokens DataType}
    (ht : ∀ v, v < g.length → (g.node v).token < tk.tokenNumber) {c : DataType}
    (hc : c ∉ tk.dataMap) : nextVertex g (tk.number c) = nextVertex g tk := by
  funext v d
  rw [nextVertex, nextVertex, Tokens.number_lookup]
  by_cases hd : d = c
  · rw [if_pos hd, hd, AList.lookup_eq_none.mpr hc, Option.bind_some, Option.bind_none]
    by_contra hne
    obtain ⟨u, hu⟩ := Option.ne_none_iff_exists'.mp hne
    obtain ⟨hchild, htoken⟩ := hg.isChild_of_descend hu
    have := ht u (hg.older v u hchild).2
    omega
  · rw [if_neg hd]

lemma Tokens.number_mem {tk : Tokens DataType} {c d : DataType} (h : d = c ∨ d ∈ tk.dataMap) :
    d ∈ (if c ∈ tk.dataMap then tk else tk.number c).dataMap := by
  split
  · rename_i hc
    rcases h with rfl | hd
    · exact hc
    · exact hd
  · exact (AList.mem_insert _).mpr h

lemma walk_unknown {t : ContextTree DataType ContextData} {dataFrag : List DataType} {d : DataType}
    (hd : d ∈ dataFrag) (hmem : d ∉ t.tokens.dataMap)
    (hknown : ∀ c ∈ dataFrag.reverse.tail, c ∈ t.tokens.dataMap) :
    (dataFrag.reverse.drop ((t.visited dataFrag).length - 1)).head? = some d := by
  have hd' := List.mem_reverse.mpr hd
  cases hr : dataFrag.reverse with
  | nil => simp [hr] at hd'
  | cons x ds =>
    rw [hr, List.mem_cons] at hd'
    rcases hd' with rfl | hd'
    · have hstop : nextVertex t.tree t.tokens t.root d = none := by
        rw [nextVertex, AList.lookup_eq_none.mpr hmem, Option.bind_none]
      simp [ContextTree.visited, hr, walk, hstop]
    · exact (hmem (hknown d (by simpa [hr] using hd'))).elim

structure Pending (t : ContextTree DataType ContextData) (dataFrag : List DataType)
    (contextId : ℕ) : Prop where
  active : contextId ∈ t.activeIds
  missed : t.matched dataFrag = none
  noted : ∃ con, t.contexts[contextId]? = some con ∧ Recorded t.tree con (t.visited dataFrag) ∧
    t.tokens.Name (dataFrag.reverse.drop ((t.visited dataFrag).length - 1))
      ((con.additions.drop (t.visited dataFrag).length).take con.additionSize)

omit [DecidableEq DataType] in
lemma known_of_drop {dataFrag : List DataType} {tk : Tokens DataType}
    (hknown : ∀ c ∈ dataFrag.reverse.tail, c ∈ tk.dataMap) {k : ℕ} {c : DataType}
    {rest : List DataType} (hdrop : dataFrag.reverse.drop k = c :: rest) :
    ∀ d ∈ rest, d ∈ tk.dataMap := by
  intro d hd
  apply hknown
  have htail := congrArg List.tail hdrop
  rw [List.tail_drop, Nat.add_comm, ← List.drop_drop, List.drop_one, List.tail_cons] at htail
  exact List.mem_of_mem_drop (htail ▸ hd)

section Predict

variable {t t' : ContextTree DataType ContextData} {dataFrag : List DataType} {contextId : ℕ}
  {con : Context ContextData}

lemma Predicted.learns (h : t.Sound) (hn : t.Numbered) (hi : t.tokens.Injective)
    (hp : Predicted t t' dataFrag contextId con) (hm : t.matched dataFrag = none)
    (hknown : ∀ c ∈ dataFrag.reverse.tail, c ∈ t.tokens.dataMap) :
    Pending t' dataFrag contextId ∧ t'.tokens.Injective ∧
      nextVertex t'.tree t'.tokens = nextVertex t.tree t.tokens ∧
      ∀ c, c ∈ t.tokens.dataMap ∨ c ∈ dataFrag → c ∈ t'.tokens.dataMap := by
  obtain ⟨c, rest, last, hdrop, _, _, _, hsize, hadd, htk⟩ := hp.missed hm
  have hrest := known_of_drop hknown hdrop
  obtain ⟨hname, hsame⟩ := missedTokens_known c (fun d hd => Or.inr (hrest d hd))
  have htree : t'.tree = t.tree := by rw [hp.same]
  have hroot : t'.root = t.root := by rw [hp.same]
  have hnext : nextVertex t'.tree t'.tokens = nextVertex t.tree t.tokens := by
    rw [htree, htk, hsame]
    split
    · rfl
    · rename_i hc
      exact nextVertex_number h.ordered hn.tree hc
  have hvisited : t'.visited dataFrag = t.visited dataFrag := by
    rw [ContextTree.visited, ContextTree.visited, hnext, hroot]
  have hactive : contextId ∈ t'.activeIds := by
    obtain ⟨_, active, _, ha, _⟩ := hp.kept
    simp [ha]
  refine ⟨⟨hactive, ?_, con, hp.getElem? h, ?_, ?_⟩, ?_, hnext, ?_⟩
  · rw [matched, hnext, hroot]
    exact hm
  · have hr := hp.recorded h
    rw [settlePath, if_pos hm] at hr
    rw [hvisited, htree]
    exact hr
  · rw [hvisited, hdrop, hsize, hadd, htk]
    exact hname
  · rw [htk, hsame]
    split
    · exact hi
    · exact hn.tokens.number_injective hi c
  · intro d hd
    rw [htk, hsame]
    apply Tokens.number_mem
    by_cases hmem : d ∈ t.tokens.dataMap
    · exact Or.inr hmem
    · have hfirst := walk_unknown (hd.resolve_left hmem) hmem hknown
      rw [hdrop, List.head?_cons, Option.some.injEq] at hfirst
      exact Or.inl hfirst.symm

lemma Predicted.tokens_eq (hp : Predicted t t' dataFrag contextId con)
    (hm : t.matched dataFrag = none) (hknown : ∀ c ∈ dataFrag.reverse.tail, c ∈ t.tokens.dataMap)
    {d : DataType} (hd : dataFrag.reverse.head? = some d) :
    t'.tokens = if d ∈ t.tokens.dataMap then t.tokens else t.tokens.number d := by
  obtain ⟨c, rest, last, hdrop, _, _, _, _, _, htk⟩ := hp.missed hm
  have hrest := known_of_drop hknown hdrop
  rw [htk, (missedTokens_known c (fun d hd => Or.inr (hrest d hd))).2]
  by_cases hmem : d ∈ t.tokens.dataMap
  · have hall : ∀ x ∈ dataFrag.reverse, x ∈ t.tokens.dataMap := by
      obtain ⟨ds, hds⟩ := List.head?_eq_some_iff.mp hd
      rw [hds, List.tail_cons] at hknown
      rw [hds]
      exact List.forall_mem_cons.mpr ⟨hmem, hknown⟩
    have hc : c ∈ dataFrag.reverse := List.mem_of_mem_drop (hdrop ▸ List.mem_cons_self)
    rw [if_pos hmem, if_pos (hall c hc)]
  · have hfirst := walk_unknown (List.mem_reverse.mp (List.mem_of_head? hd)) hmem hknown
    rw [hdrop, List.head?_cons, Option.some.injEq] at hfirst
    rw [hfirst]

end Predict

lemma Pending.setData {t : ContextTree DataType ContextData} {dataFrag : List DataType}
    {contextId : ℕ} (h : Pending t dataFrag contextId) (i : ℕ) (data : ContextData) :
    Pending (t.setData i data) dataFrag contextId := by
  obtain ⟨con, hc, hr, hname⟩ := h.noted
  refine ⟨h.active, h.missed, ?_⟩
  by_cases he : i = contextId
  · refine ⟨{ con with data := data }, ?_, hr.of_data data, hname⟩
    rw [setData_getElem?, hc, Option.map_some, if_pos he]
  · refine ⟨con, ?_, hr, hname⟩
    rw [setData_getElem?, hc, Option.map_some, if_neg he]

lemma Pending.additions {t : ContextTree DataType ContextData} {dataFrag : List DataType}
    {contextId : ℕ} (hp : Pending t dataFrag contextId) {con : Context ContextData} {path : List ℕ}
    (hc : t.contexts[contextId]? = some con) (hr : Recorded t.tree con path) :
    path = t.visited dataFrag ∧ path.length + con.additionSize = dataFrag.length + 1 ∧
      t.tokens.Name (dataFrag.reverse.drop ((t.visited dataFrag).length - 1))
        ((con.additions.drop (t.visited dataFrag).length).take con.additionSize) := by
  obtain ⟨con', hc', hr', hname⟩ := hp.noted
  obtain rfl : con = con' := by simpa [hc] using hc'
  obtain rfl := hr.unique hr'
  have hshort : (t.visited dataFrag).length ≤ dataFrag.reverse.length :=
    (follow_eq_none_iff _ _ _).mp hp.missed
  have hpos := hr.length_pos
  have hroom := hr.room
  have hsize := hname.length_eq
  rw [List.length_drop, List.length_reverse, List.length_take, List.length_drop,
    Context.additions_length] at hsize
  rw [List.length_reverse] at hshort
  exact ⟨rfl, by omega, hname⟩

/-- From 2^31 on, the sum of the two `int`s has turned negative, and nothing is added. -/
lemma Pending.newTokens_eq_nil {t : ContextTree DataType ContextData} {dataFrag : List DataType}
    {contextId : ℕ} (hp : Pending t dataFrag contextId) {con : Context ContextData} {path : List ℕ}
    (hc : t.contexts[contextId]? = some con) (hr : Recorded t.tree con path)
    (hlong : 2 ^ 31 ≤ dataFrag.length + 1) (depth : ℤ) : newTokens con path.length depth = [] := by
  obtain ⟨-, hsize, -⟩ := hp.additions hc hr
  have hlen := hr.newTokens_length depth
  rwa [additionRounds, if_neg (by omega), List.length_eq_zero_iff] at hlen

lemma Pending.newTokens_length {t : ContextTree DataType ContextData} {dataFrag : List DataType}
    {contextId : ℕ} (hp : Pending t dataFrag contextId) {con : Context ContextData} {path : List ℕ}
    (hc : t.contexts[contextId]? = some con) (hr : Recorded t.tree con path) {depth : ℕ}
    (hle : dataFrag.length ≤ depth) (hint : dataFrag.length + 1 < 2 ^ 31) :
    path.length + (newTokens con path.length depth).length = min (dataFrag.length + 1) depth := by
  obtain ⟨rfl, hsize, -⟩ := hp.additions hc hr
  have hshort : (t.visited dataFrag).length ≤ dataFrag.reverse.length :=
    (follow_eq_none_iff _ _ _).mp hp.missed
  rw [List.length_reverse] at hshort
  have hpos := hr.length_pos
  rw [hr.newTokens_length, additionRounds, if_pos (by omega)]
  omega

lemma Pending.newTokens_name {t : ContextTree DataType ContextData} {dataFrag : List DataType}
    {contextId : ℕ} (hp : Pending t dataFrag contextId) {con : Context ContextData} {path : List ℕ}
    (hc : t.contexts[contextId]? = some con) (hr : Recorded t.tree con path) (depth : ℤ) :
    t.tokens.Name ((dataFrag.reverse.drop (path.length - 1)).take
      (newTokens con path.length depth).length) (newTokens con path.length depth) := by
  obtain ⟨rfl, -, hname⟩ := hp.additions hc hr
  have htake := List.forall₂_take (newTokens con (t.visited dataFrag).length depth).length hname
  rw [List.take_take, hr.newTokens_length, Nat.min_eq_left (additionRounds_le _ _ _)] at htake
  rw [hr.newTokens_length]
  exact htake

lemma Pending.grows (tp : Template) {t : ContextTree DataType ContextData}
    {dataFrag : List DataType} {contextId : ℕ} (hp : Pending t dataFrag contextId) (h : t.Sound)
    (hi : t.tokens.Injective) {con : Context ContextData} {path : List ℕ}
    (hc : t.contexts[contextId]? = some con) (hr : Recorded t.tree con path) {depth : ℕ}
    (hle : dataFrag.length ≤ depth) (hint : dataFrag.length + 1 < 2 ^ 31) :
    let t' := settled tp t contextId con path depth
    let count := (newTokens con path.length depth).length
    path = t.visited dataFrag ∧ path.length + count = min (dataFrag.length + 1) depth ∧
      (t.tree.Wooded → t'.tree.Wooded) ∧
      Grows (nextVertex t.tree t.tokens) con.leaf
        (((dataFrag.reverse.drop (path.length - 1)).take count).zip
          (List.range' t.tree.length count))
        (nextVertex t'.tree t'.tokens) := by
  dsimp only
  have hcount := hp.newTokens_length hc hr hle hint
  have hnew := hp.newTokens_name hc hr (depth : ℤ)
  obtain ⟨rfl, -, -⟩ := hp.additions hc hr
  have hmissed : follow (nextVertex t.tree t.tokens) t.root dataFrag.reverse = none := hp.missed
  obtain ⟨c, rest, hdrop, hstop⟩ := walk_stops hmissed
  change dataFrag.reverse.drop ((t.visited dataFrag).length - 1) = _ at hdrop
  have hfree : ∀ n ∈ (newTokens con (t.visited dataFrag).length depth).head?,
      descend t.tree con.leaf n = none := by
    intro n hn
    obtain ⟨ns, hns⟩ := List.head?_eq_some_iff.mp hn
    rw [hns, hdrop] at hnew
    obtain ⟨hfirst, _⟩ := List.forall₂_cons.mp hnew
    have hnone := hstop con.leaf hr.leaf
    rwa [nextVertex, hfirst, Option.bind_some] at hnone
  have htree : (settled tp t contextId con (t.visited dataFrag) depth).tree =
      addChain tp t.tree t.tree.length con.leaf
        (newTokens con (t.visited dataFrag).length depth) := by
    simp [settled, deactivateContext, h.vertexNumber]
  refine ⟨rfl, hcount, fun hw => ?_, ?_⟩
  · rw [htree]
    exact hw.addChain h.ordered tp hr.leaf_lt _ hfree
  · rw [htree]
    exact (addChain_grows tp h.ordered hr.leaf_lt _ hfree).relabel hi hnew

end WordModel.ContextTree
