import WordModel.Library.Follow
import Mathlib.Data.List.Forall2

/-! Automata that reach each state by one word at most, as trees do, and what they reach
once they have been grown along a word. -/

namespace WordModel.Follow

variable {V T S : Type}

section Walk

variable {next next' : V → T → Option V}

lemma mem_walk_iff {v u : V} {ts : List T} :
    u ∈ walk next v ts ↔ ∃ s, s <+: ts ∧ follow next v s = some u := by
  constructor
  · intro h
    obtain ⟨k, hk, hget⟩ := List.mem_iff_getElem.mp h
    have hle := walk_length_le next v ts
    have hfollow := walk_getElem? next v ts k (by omega)
    rw [List.getElem?_eq_getElem hk, hget] at hfollow
    exact ⟨ts.take k, List.take_prefix k ts, hfollow.symm⟩
  · rintro ⟨s, hs, hu⟩
    have hwalk := walk_getElem? next v ts s.length hs.length_le
    rw [← List.prefix_iff_eq_take.mp hs, hu] at hwalk
    exact List.mem_of_getElem? hwalk

lemma walk_concat {v u : V} {ts : List T} (h : follow next v ts = some u) {t : T} {w : V}
    (hw : next u t = some w) : walk next v (ts ++ [t]) = walk next v ts ++ [w] := by
  induction ts generalizing v with
  | nil =>
    obtain rfl : v = u := by simpa using h
    simp [walk, hw]
  | cons s ts ih =>
    cases hs : next v s with
    | none => simp [follow, hs] at h
    | some m =>
      have hm : follow next m ts = some u := by simpa [follow, hs] using h
      simp [walk, hs, ih hm]

lemma follow_of_extends (hn : ∀ v t u, next v t = some u → next' v t = some u) {v u : V}
    {ts : List T} (h : follow next v ts = some u) :
    follow next' v ts = some u ∧ walk next' v ts = walk next v ts := by
  induction ts generalizing v with
  | nil => exact ⟨h, rfl⟩
  | cons t ts ih =>
    cases ht : next v t with
    | none => simp [follow, ht] at h
    | some m =>
      obtain ⟨hfollow, hwalk⟩ := ih (v := m) (by simpa [follow, ht] using h)
      simp [follow, walk, ht, hn v t m ht, hfollow, hwalk]

variable (next) in
lemma follow_take_walk (v : V) (ts : List T) :
    follow next v (ts.take ((walk next v ts).length - 1)) = (walk next v ts).getLast? := by
  have hle := walk_length_le next v ts
  rw [List.getLast?_eq_getElem?, walk_getElem? _ _ _ _ (by omega)]

lemma walk_stops {v : V} {ts : List T} (h : follow next v ts = none) :
    ∃ c rest, ts.drop ((walk next v ts).length - 1) = c :: rest ∧
      ∀ last ∈ (walk next v ts).getLast?, next last c = none := by
  have hle := (follow_eq_none_iff next v ts).mp h
  have hpos := walk_length_pos next v ts
  obtain ⟨c, hc⟩ : ∃ c, ts[(walk next v ts).length - 1]? = some c :=
    ⟨_, List.getElem?_eq_getElem (by omega)⟩
  have hdrop := List.drop_eq_getElem_cons (l := ts) (i := (walk next v ts).length - 1) (by omega)
  rw [List.getElem?_eq_getElem (by omega), Option.some.injEq] at hc
  refine ⟨c, _, hc ▸ hdrop, fun last hlast => ?_⟩
  have hend := walk_getElem? next v ts (walk next v ts).length hle
  have htake : ts.take (walk next v ts).length =
      ts.take ((walk next v ts).length - 1) ++ [c] := by
    rw [← hc, List.take_append_getElem, Nat.sub_add_cancel hpos]
  rw [List.getElem?_eq_none (Nat.le_refl _), htake, follow_concat, follow_take_walk, hlast,
    Option.bind_some] at hend
  exact hend.symm

variable (next) in
lemma walk_take_self (v : V) (ts : List T) :
    walk next v (ts.take ((walk next v ts).length - 1)) = walk next v ts := by
  induction ts generalizing v with
  | nil => rfl
  | cons t ts ih =>
    cases ht : next v t with
    | none => simp [walk, ht]
    | some m =>
      have hpos := walk_length_pos next m ts
      have hlen : (walk next v (t :: ts)).length - 1 = ((walk next m ts).length - 1) + 1 := by
        simp only [walk, ht, List.length_cons]
        omega
      rw [hlen, List.take_succ_cons]
      simp [walk, ht, ih]

end Walk

/-- The alphabet is entered through a partial renaming. -/
def relabel (φ : S → Option T) (next : V → T → Option V) (v : V) (s : S) : Option V :=
  (φ s).bind (next v)

section Relabel

variable {R : Type} {φ : S → Option T} {ψ : R → Option T} {next next' : V → T → Option V}

lemma walk_relabel {ss : List S} {rs : List R}
    (h : List.Forall₂ (fun s r => φ s = ψ r) ss rs) (v : V) :
    follow (relabel φ next) v ss = follow (relabel ψ next) v rs ∧
      walk (relabel φ next) v ss = walk (relabel ψ next) v rs := by
  induction h generalizing v with
  | nil => exact ⟨rfl, rfl⟩
  | @cons s r ss rs hsr _ ih =>
    have hnext : relabel φ next v s = relabel ψ next v r := by rw [relabel, relabel, hsr]
    cases hr : relabel ψ next v r with
    | none => simp [follow, walk, hnext, hr]
    | some u => simp [follow, walk, hnext, hr, ih u]

lemma follow_relabel_iff {v u : V} {ss : List S} :
    follow (relabel φ next) v ss = some u ↔
      ∃ ts, List.Forall₂ (fun s t => φ s = some t) ss ts ∧ follow next v ts = some u := by
  induction ss generalizing v with
  | nil => simp [List.forall₂_nil_left_iff]
  | cons s ss ih =>
    rw [follow, Option.bind_eq_some_iff]
    constructor
    · rintro ⟨m, hm, hu⟩
      obtain ⟨t, ht, hnext⟩ := Option.bind_eq_some_iff.mp hm
      obtain ⟨ts, hts, hfollow⟩ := ih.mp hu
      exact ⟨t :: ts, .cons ht hts, by rw [follow, hnext, Option.bind_some, hfollow]⟩
    · rintro ⟨ts, hts, hfollow⟩
      cases hts with
      | @cons _ t _ ts ht hts =>
        rw [follow, Option.bind_eq_some_iff] at hfollow
        obtain ⟨m, hm, hu⟩ := hfollow
        exact ⟨m, by rw [relabel, ht, Option.bind_some, hm], ih.mpr ⟨ts, hts, hu⟩⟩

lemma Adds.relabel (hφ : ∀ s s' t, φ s = some t → φ s' = some t → s = s') {last new : V} {t : T}
    (h : Adds next next' last t new) {s : S} (hs : φ s = some t) :
    Adds (Follow.relabel φ next) (Follow.relabel φ next') last s new where
  free := by rw [Follow.relabel, hs, Option.bind_some, h.free]
  fresh := h.fresh
  noExit r := by
    rw [Follow.relabel, Option.bind_eq_none_iff]
    exact fun t' _ => h.noExit t'
  noEntry v r he := by
    obtain ⟨t', _, hn⟩ := Option.bind_eq_some_iff.mp he
    exact h.noEntry v t' hn
  added := by rw [Follow.relabel, hs, Option.bind_some, h.added]
  same v r hr := by
    cases ht : φ r with
    | none => simp [Follow.relabel, ht]
    | some t' =>
      rw [Follow.relabel, Follow.relabel, ht, Option.bind_some, Option.bind_some]
      refine h.same v t' ?_
      rintro ⟨hv, rfl⟩
      exact hr ⟨hv, hφ r s t' ht hs⟩

lemma Grows.relabel (hφ : ∀ s s' t, φ s = some t → φ s' = some t → s = s') {last : V}
    {ss : List S} {ts : List T} (hs : List.Forall₂ (fun s t => φ s = some t) ss ts) {vs : List V}
    (h : Grows next last (ts.zip vs) next') :
    Grows (Follow.relabel φ next) last (ss.zip vs) (Follow.relabel φ next') := by
  induction hs generalizing next last vs with
  | nil =>
    cases h
    exact .nil
  | cons hs _ ih =>
    cases vs with
    | nil =>
      cases h
      exact .nil
    | cons v vs =>
      cases h with
      | cons ha hg => exact .cons (ha.relabel hφ hs) (ih hg)

end Relabel

def Unambiguous (next : V → T → Option V) (root : V) : Prop :=
  ∀ s s' v, follow next root s = some v → follow next root s' = some v → s = s'

section Grow

variable {next next' : V → T → Option V} {last new root : V} {t : T}

lemma Adds.extends (h : Adds next next' last t new) (v : V) (s : T) (u : V)
    (hn : next v s = some u) : next' v s = some u :=
  h.next_eq_some.mpr (Or.inl hn)

lemma Adds.unambiguous (h : Adds next next' last t new) (hroot : root ≠ new)
    (hu : Unambiguous next root) : Unambiguous next' root := by
  intro s s' v hs hs'
  have hold (p : List T) (hp : follow next root p = some new) : False :=
    follow_ne_new h.noEntry hroot p hp
  rcases (h.follow_eq_some hroot).mp hs with hs | ⟨rfl, p, rfl, hp⟩
  · rcases (h.follow_eq_some hroot).mp hs' with hs' | ⟨rfl, _, _, _⟩
    · exact hu s s' v hs hs'
    · exact (hold s hs).elim
  · rcases (h.follow_eq_some hroot).mp hs' with hs' | ⟨_, p', rfl, hp'⟩
    · exact (hold s' hs').elim
    · rw [hu p p' last hp hp']

lemma Grows.unambiguous {chain : List (T × V)} (h : Grows next last chain next')
    (hroot : ∀ c ∈ chain, root ≠ c.2) (hu : Unambiguous next root) : Unambiguous next' root := by
  induction h with
  | nil => exact hu
  | @cons next mid next' last t new rest ha _ ih =>
    exact ih (fun c hc => hroot c (List.mem_cons_of_mem _ hc))
      (ha.unambiguous (hroot (t, new) (by simp)) hu)

lemma Grows.walk {chain : List (T × V)} (h : Grows next last chain next') {p : List T}
    (hp : follow next root p = some last) :
    Follow.walk next' root (p ++ chain.map Prod.fst) =
        Follow.walk next root p ++ chain.map Prod.snd ∧
      (follow next' root (p ++ chain.map Prod.fst)).isSome := by
  induction h generalizing p with
  | nil => simp [hp]
  | @cons next mid next' last t new rest ha _ ih =>
    obtain ⟨hfollow, hwalk⟩ := follow_of_extends ha.extends hp
    have hnew : follow mid root (p ++ [t]) = some new := by
      rw [follow_concat, hfollow, Option.bind_some, ha.added]
    have hh := ih hnew
    rw [walk_concat hfollow ha.added, hwalk] at hh
    simpa using hh

lemma Grows.reaches {chain : List (T × V)} (h : Grows next last chain next')
    (hroot : ∀ c ∈ chain, root ≠ c.2) (hu : Unambiguous next root) {p : List T}
    (hp : follow next root p = some last) (s : List T) :
    (follow next' root s).isSome ↔
      (follow next root s).isSome ∨ s <+: p ++ chain.map Prod.fst := by
  obtain ⟨_, hfull⟩ := h.walk hp
  constructor
  · intro hs
    obtain ⟨v, hv⟩ := Option.isSome_iff_exists.mp hs
    rcases (h.follow_eq_some hroot).mp hv with hold | ⟨k, _, q, rfl, hq⟩
    · exact Or.inl (by rw [hold]; rfl)
    · right
      rw [hu q p last hq hp, List.prefix_append_right_inj]
      exact (List.take_prefix _ _).map _
  · rintro (hs | hs)
    · obtain ⟨v, hv⟩ := Option.isSome_iff_exists.mp hs
      rw [(h.follow_eq_some hroot).mpr (Or.inl hv)]
      rfl
    · obtain ⟨r, hr⟩ := hs
      rw [← hr, follow_append] at hfull
      cases hf : follow next' root s with
      | none => simp [hf] at hfull
      | some v => rfl

end Grow

end WordModel.Follow
