import Mathlib.Data.List.Induction
import Mathlib.Tactic.Common

/-! Partial deterministic automata: the state that a word leads to, the states
visited on the way, and what a new transition to a fresh state changes. -/

namespace WordModel.Follow

variable {V T : Type}

section

variable (next : V → T → Option V)

def follow : V → List T → Option V
  | v, [] => some v
  | v, t :: ts => (next v t).bind (follow · ts)

def walk : V → List T → List V
  | v, [] => [v]
  | v, t :: ts => v ::
      match next v t with
      | some u => walk u ts
      | none => []

@[simp] lemma follow_nil (v : V) : follow next v [] = some v := rfl

lemma follow_append (v : V) (xs ys : List T) :
    follow next v (xs ++ ys) = (follow next v xs).bind (follow next · ys) := by
  induction xs generalizing v with
  | nil => rfl
  | cons x xs ih =>
    cases h : next v x with
    | none => simp [follow, h]
    | some u => simp [follow, h, ih]

lemma follow_concat (v : V) (xs : List T) (t : T) :
    follow next v (xs ++ [t]) = (follow next v xs).bind (next · t) := by
  rw [follow_append]
  congr 1
  funext u
  cases h : next u t <;> simp [follow, h]

lemma follow_mono {next' : V → T → Option V}
    (h : ∀ v t u, next v t = some u → next' v t = some u) {v u : V} {ts : List T}
    (hu : follow next v ts = some u) : follow next' v ts = some u := by
  induction ts generalizing v with
  | nil => exact hu
  | cons t ts ih =>
    rw [follow, Option.bind_eq_some_iff] at hu ⊢
    obtain ⟨m, hm, hu⟩ := hu
    exact ⟨m, h v t m hm, ih hu⟩

lemma walk_length_pos (v : V) (ts : List T) : 0 < (walk next v ts).length := by
  cases ts <;> simp [walk]

lemma walk_length_le (v : V) (ts : List T) : (walk next v ts).length ≤ ts.length + 1 := by
  induction ts generalizing v with
  | nil => simp [walk]
  | cons t ts ih =>
    cases h : next v t with
    | none => simp [walk, h]
    | some u => simpa [walk, h] using ih u

lemma walk_getElem? (v : V) (ts : List T) (k : ℕ) (hk : k ≤ ts.length) :
    (walk next v ts)[k]? = follow next v (ts.take k) := by
  induction ts generalizing v k with
  | nil =>
    obtain rfl : k = 0 := by simpa using hk
    rfl
  | cons t ts ih =>
    cases k with
    | zero => rfl
    | succ k =>
      have hk' : k ≤ ts.length := by simpa using hk
      cases h : next v t with
      | none => simp [walk, follow, h]
      | some u => simpa [walk, follow, h] using ih u k hk'

lemma follow_eq_none_iff (v : V) (ts : List T) :
    follow next v ts = none ↔ (walk next v ts).length ≤ ts.length := by
  have h := walk_getElem? next v ts ts.length (Nat.le_refl _)
  rw [List.take_length] at h
  rw [← h, List.getElem?_eq_none_iff]

lemma walk_isChain {R : V → V → Prop} (hR : ∀ v t u, next v t = some u → R v u) (v : V)
    (ts : List T) : (walk next v ts).IsChain R := by
  induction ts generalizing v with
  | nil => simp [walk]
  | cons t ts ih =>
    cases h : next v t with
    | none => simp [walk, h]
    | some u =>
      have hh := ih u
      simp only [walk, h]
      cases ts with
      | nil => simpa [walk] using hR v t u h
      | cons s ts => simpa [walk] using ⟨hR v t u h, by simpa [walk] using hh⟩

lemma walk_mem {P : V → Prop} (hP : ∀ v t u, next v t = some u → P u) {v : V} (hv : P v)
    (ts : List T) : ∀ u ∈ walk next v ts, P u := by
  induction ts generalizing v with
  | nil => simpa [walk] using hv
  | cons t ts ih =>
    cases h : next v t with
    | none => simpa [walk, h] using hv
    | some u => simpa [walk, h] using ⟨hv, ih (hP v t u h)⟩

end

/-- `next'` has one transition more than `next`, to a state that `next` neither
enters nor leaves. -/
structure Adds (next next' : V → T → Option V) (last : V) (t : T) (new : V) : Prop where
  free : next last t = none
  fresh : new ≠ last
  noExit : ∀ s, next new s = none
  noEntry : ∀ v s, next v s ≠ some new
  added : next' last t = some new
  same : ∀ v s, ¬ (v = last ∧ s = t) → next' v s = next v s

inductive Grows : (V → T → Option V) → V → List (T × V) → (V → T → Option V) → Prop
  | nil {next last} : Grows next last [] next
  | cons {next mid next' last t new rest} : Adds next mid last t new →
      Grows mid new rest next' → Grows next last ((t, new) :: rest) next'

section

variable {next next' : V → T → Option V} {last new root : V} {t : T}

lemma Adds.next_eq_some (h : Adds next next' last t new) {v u : V} {s : T} :
    next' v s = some u ↔ next v s = some u ∨ (v = last ∧ s = t ∧ u = new) := by
  by_cases hv : v = last ∧ s = t
  · obtain ⟨rfl, rfl⟩ := hv
    simp [h.added, h.free, eq_comm]
  · rw [h.same v s hv]
    constructor
    · exact Or.inl
    · rintro (h' | ⟨rfl, rfl, rfl⟩)
      · exact h'
      · exact (hv ⟨rfl, rfl⟩).elim

lemma Adds.new_noExit (h : Adds next next' last t new) (s : T) : next' new s = none := by
  rw [h.same new s (fun hh => h.fresh hh.1), h.noExit]

lemma Adds.follow_eq_some (h : Adds next next' last t new) {v : V} (hv : v ≠ new) {ys : List T}
    {u : V} :
    follow next' v ys = some u ↔
      follow next v ys = some u ∨ (u = new ∧ ∃ p, ys = p ++ [t] ∧ follow next v p = some last) := by
  induction ys using List.reverseRecOn generalizing u with
  | nil => simp
  | append_singleton ys s ih =>
    rw [follow_concat, follow_concat]
    simp only [Option.bind_eq_some_iff]
    constructor
    · rintro ⟨m, hm, hs⟩
      rcases ih.mp hm with hm' | ⟨rfl, _⟩
      · rcases h.next_eq_some.mp hs with hs' | ⟨rfl, rfl, rfl⟩
        · exact Or.inl ⟨m, hm', hs'⟩
        · exact Or.inr ⟨rfl, ys, rfl, hm'⟩
      · rw [h.new_noExit] at hs
        cases hs
    · rintro (⟨m, hm, hs⟩ | ⟨rfl, p, hp, hl⟩)
      · exact ⟨m, ih.mpr (Or.inl hm), h.next_eq_some.mpr (Or.inl hs)⟩
      · obtain ⟨rfl, hst⟩ := List.append_inj' hp rfl
        obtain rfl : s = t := by simpa using hst
        exact ⟨last, ih.mpr (Or.inl hl), h.added⟩

lemma follow_ne_new (h : ∀ v s, next v s ≠ some new) {v : V} (hv : v ≠ new) (ys : List T) :
    follow next v ys ≠ some new := by
  intro he
  induction ys using List.reverseRecOn with
  | nil => exact hv (by simpa using he)
  | append_singleton ys s _ =>
    rw [follow_concat, Option.bind_eq_some_iff] at he
    obtain ⟨m, _, hm⟩ := he
    exact h m s hm

lemma Grows.follow_eq_some {chain : List (T × V)} (h : Grows next last chain next')
    (hroot : ∀ c ∈ chain, root ≠ c.2) {ys : List T} {u : V} :
    follow next' root ys = some u ↔ follow next root ys = some u ∨
      ∃ k, (chain[k]?).map Prod.snd = some u ∧
        ∃ p, ys = p ++ (chain.take (k + 1)).map Prod.fst ∧ follow next root p = some last := by
  induction h generalizing ys u with
  | nil => simp
  | @cons next mid next' last t new rest ha _ ih =>
    have hne : root ≠ new := hroot (t, new) (by simp)
    rw [ih (fun c hc => hroot c (List.mem_cons_of_mem _ hc)), ha.follow_eq_some hne, or_assoc]
    apply or_congr_right
    constructor
    · rintro (⟨rfl, p, rfl, hp⟩ | ⟨k, hk, p, rfl, hp⟩)
      · exact ⟨0, rfl, p, by simp, hp⟩
      · rcases (ha.follow_eq_some hne).mp hp with hp' | ⟨_, q, rfl, hq⟩
        · exact (follow_ne_new ha.noEntry hne p hp').elim
        · exact ⟨k + 1, by simpa using hk, q, by simp, hq⟩
    · rintro ⟨k, hk, p, rfl, hp⟩
      cases k with
      | zero => exact Or.inl ⟨by simpa [eq_comm] using hk, p, by simp, hp⟩
      | succ k =>
        refine Or.inr ⟨k, by simpa using hk, p ++ [t], by simp, ?_⟩
        exact (ha.follow_eq_some hne).mpr (Or.inr ⟨rfl, p, rfl, hp⟩)

end

end WordModel.Follow
