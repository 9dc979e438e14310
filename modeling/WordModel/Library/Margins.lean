import Mathlib.Algebra.BigOperators.Group.List.Basic
import Mathlib.Algebra.GroupWithZero.Nat
import Mathlib.Data.List.Count
import Mathlib.Data.Prod.Basic
import Mathlib.Tactic.Common

/-! The margins of a table that counts pairs of numbers. -/

namespace WordModel.Margins

lemma sum_range_ite {n k : ℕ} (h : k < n) (c : ℕ) :
    ((List.range n).map (fun j => if j = k then c else 0)).sum = c := by
  induction n with
  | zero => cases h
  | succ n ih =>
    rw [List.range_succ, List.map_append, List.sum_append, List.map_singleton, List.sum_singleton]
    rcases Nat.lt_succ_iff_lt_or_eq.mp h with hlt | rfl
    · rw [ih hlt, if_neg (Nat.ne_of_gt hlt), Nat.add_zero]
    · have hnone : ((List.range k).map (fun j => if j = k then c else 0)).sum = 0 := by
        apply List.sum_eq_zero
        intro x hx
        obtain ⟨j, hj, rfl⟩ := List.mem_map.mp hx
        exact if_neg (Nat.ne_of_lt (List.mem_range.mp hj))
      rw [hnone, if_pos rfl, Nat.zero_add]

lemma sum_count_fst {ps : List (ℕ × ℕ)} {n : ℕ} (h : ∀ q ∈ ps, q.1 < n) (i : ℕ) :
    ((List.range n).map (fun j => ps.count (j, i))).sum = (ps.map Prod.snd).count i := by
  induction ps with
  | nil => simp
  | cons q ps ih =>
    obtain ⟨hq, hps⟩ := List.forall_mem_cons.mp h
    have hcell (j : ℕ) : (q :: ps).count (j, i) =
        ps.count (j, i) + if j = q.1 then (if q.2 = i then 1 else 0) else 0 := by
      rw [List.count_cons]
      congr 1
      by_cases hj : j = q.1
      · subst hj
        simp [Prod.ext_iff]
      · simp [Prod.ext_iff, Ne.symm hj, hj]
    simp only [hcell]
    rw [List.sum_map_add, ih hps, sum_range_ite hq, List.map_cons, List.count_cons]
    simp

lemma sum_count_snd {ps : List (ℕ × ℕ)} {n : ℕ} (h : ∀ q ∈ ps, q.2 < n) (i : ℕ) :
    ((List.range n).map (fun j => ps.count (i, j))).sum = (ps.map Prod.fst).count i := by
  have hswap (j : ℕ) : ps.count (i, j) = (ps.map Prod.swap).count (j, i) :=
    (List.count_map_of_injective ps Prod.swap Prod.swap_injective (i, j)).symm
  have hlt : ∀ q ∈ ps.map Prod.swap, q.1 < n := by
    intro q hq
    obtain ⟨r, hr, rfl⟩ := List.mem_map.mp hq
    exact h r hr
  simp only [hswap]
  rw [sum_count_fst hlt, List.map_map]
  rfl

end WordModel.Margins
