import Mathlib.Data.List.Infix
import WordModel.Library.Unambiguous
import Mathlib.Algebra.GroupWithZero.Nat

/-! How many of its first elements a list shares with another, and the states a walk visits
as the states its prefixes lead to. -/

namespace WordModel.Follow

lemma inits_eq_cons {α : Type} (ys : List α) : ys.inits = [] :: ys.inits.tail := by
  cases ys <;> rfl

lemma ne_nil_of_mem_inits_tail {α : Type} {ys s : List α} (h : s ∈ ys.inits.tail) : s ≠ [] := by
  cases ys with
  | nil => simp at h
  | cons y ys =>
    rw [List.inits_cons, List.tail_cons, List.mem_map] at h
    obtain ⟨s, _, rfl⟩ := h
    exact List.cons_ne_nil y s

lemma sum_map_ite_eq_countP {α : Type} (P : α → Prop) [DecidablePred P] (xs : List α) :
    (xs.map (fun x => if P x then 1 else 0)).sum = xs.countP P := by
  induction xs with
  | nil => rfl
  | cons x xs ih =>
    by_cases hx : P x
    · simp [hx, ih, Nat.add_comm]
    · simp [hx, ih]

section Shared

variable {α : Type} [DecidableEq α]

/-- The length of the longest common prefix, counted up to a limit. -/
def shared : ℕ → List α → List α → ℕ
  | n + 1, x :: xs, y :: ys => if x = y then shared n xs ys + 1 else 0
  | _, _, _ => 0

@[simp] lemma shared_zero (xs ys : List α) : shared 0 xs ys = 0 := by
  simp [shared]

@[simp] lemma shared_nil (n : ℕ) (ys : List α) : shared n [] ys = 0 := by
  simp [shared]

@[simp] lemma shared_cons_self (n : ℕ) (x : α) (xs ys : List α) :
    shared (n + 1) (x :: xs) (x :: ys) = shared n xs ys + 1 := by
  simp [shared]

lemma shared_of_ne {x y : α} (h : x ≠ y) (n : ℕ) (xs ys : List α) :
    shared n (x :: xs) (y :: ys) = 0 := by
  cases n with
  | zero => rfl
  | succ n => simp [shared, h]

lemma shared_le (n : ℕ) (xs ys : List α) : shared n xs ys ≤ xs.length := by
  induction n generalizing xs ys with
  | zero => simp
  | succ n ih =>
    cases xs with
    | nil => simp
    | cons x xs =>
      cases ys with
      | nil => simp [shared]
      | cons y ys =>
        rw [shared, List.length_cons]
        split
        · exact Nat.succ_le_succ (ih xs ys)
        · exact Nat.zero_le _

lemma countP_inits_tail (n : ℕ) (xs ys : List α) :
    ys.inits.tail.countP (fun s => s.length ≤ n ∧ s <+: xs) = shared n xs ys := by
  induction ys generalizing n xs with
  | nil => cases n <;> cases xs <;> rfl
  | cons y ys ih =>
    rw [List.inits_cons, List.tail_cons, List.countP_map]
    cases n with
    | zero => simp [Function.comp_def]
    | succ n =>
      cases xs with
      | nil => simp [Function.comp_def]
      | cons x xs =>
        by_cases hx : x = y
        · subst hx
          rw [shared_cons_self, ← ih n xs, inits_eq_cons ys, List.countP_cons]
          simp [Function.comp_def, List.cons_prefix_cons]
        · simp [Function.comp_def, shared_of_ne hx, List.cons_prefix_cons, Ne.symm hx]

end Shared

section Walk

variable {V T : Type} (next : V → T → Option V)

lemma walk_eq_inits (v : V) (ts : List T) :
    walk next v ts = ts.inits.filterMap (follow next v) := by
  induction ts generalizing v with
  | nil => rfl
  | cons t ts ih =>
    rw [List.inits_cons, List.filterMap_cons, follow_nil, List.filterMap_map, walk]
    cases ht : next v t with
    | none => simp [Function.comp_def, follow, ht]
    | some u => simp [Function.comp_def, follow, ht, ih]

variable {next}

lemma walk_filter_ne {root : V} [DecidableEq V] (h : Unambiguous next root) (ts : List T) :
    (walk next root ts).filter (· ≠ root) = ts.inits.tail.filterMap (follow next root) := by
  rw [walk_eq_inits, inits_eq_cons ts, List.filterMap_cons, follow_nil, List.filter_cons_of_neg (by simp)]
  apply List.filter_eq_self.mpr
  intro v hv
  obtain ⟨s, hs, hfollow⟩ := List.mem_filterMap.mp hv
  have hroot : v ≠ root := by
    rintro rfl
    exact ne_nil_of_mem_inits_tail hs (h s [] v hfollow rfl)
  simpa using hroot

end Walk

end WordModel.Follow
