import Mathlib.Algebra.BigOperators.Group.List.Basic
import Mathlib.Tactic.Common
import Mathlib.Algebra.GroupWithZero.Nat

/-! Blocks in a row, and pieces that their concatenation is cut into. -/

namespace WordModel.Framing

variable {β : Type} (size : β → ℕ)

def total (blocks : List β) : ℕ := (blocks.map size).sum

def Aligned (pieces : List ℕ) (blocks : List β) : Prop :=
  ∀ k, ∃ j, (pieces.take k).sum = total size (blocks.take j)

variable {size}

lemma total_append (xs ys : List β) : total size (xs ++ ys) = total size xs + total size ys := by
  rw [total, List.map_append, List.sum_append]
  rfl

lemma aligned_nil (blocks : List β) : Aligned size [] blocks := by
  intro k
  refine ⟨0, ?_⟩
  rw [List.take_nil]
  rfl

lemma aligned_cons (pieces : List ℕ) (xs ys : List β) :
    Aligned size (total size xs :: pieces) (xs ++ ys) ↔ Aligned size pieces ys := by
  constructor
  · intro h k
    obtain ⟨i, hi⟩ := h (k + 1)
    rw [List.take_succ_cons, List.sum_cons, List.take_append, total_append] at hi
    rcases Nat.le_total xs.length i with hle | hle
    · rw [List.take_of_length_le hle] at hi
      exact ⟨i - xs.length, Nat.add_left_cancel hi⟩
    · refine ⟨0, ?_⟩
      have hxs : total size xs = total size (xs.take i) + total size (xs.drop i) := by
        rw [← total_append, List.take_append_drop]
      rw [Nat.sub_eq_zero_of_le hle] at hi
      simp only [List.take_zero] at hi ⊢
      have hnil : total size ([] : List β) = 0 := rfl
      omega
  · intro h k
    cases k with
    | zero => exact ⟨0, rfl⟩
    | succ k =>
      obtain ⟨j, hj⟩ := h k
      refine ⟨xs.length + j, ?_⟩
      rw [List.take_succ_cons, List.sum_cons, hj, List.take_length_add_append, total_append]

lemma Aligned.congr {pieces : List ℕ} {xs ys : List β} (hxs : Aligned size pieces xs)
    (h : xs.map size = ys.map size) : Aligned size pieces ys := by
  intro k
  obtain ⟨j, hj⟩ := hxs k
  refine ⟨j, ?_⟩
  rw [hj, total, total, List.map_take, List.map_take, h]

lemma exists_place {blocks : List β} {n : ℕ} (h : n ≤ total size blocks) :
    (∃ xs ys, blocks = xs ++ ys ∧ n = total size xs) ∨
      ∃ xs b ys k, blocks = xs ++ b :: ys ∧ n = total size xs + k ∧ 0 < k ∧ k < size b := by
  induction blocks generalizing n with
  | nil => exact Or.inl ⟨[], [], rfl, Nat.le_zero.mp h⟩
  | cons b blocks ih =>
    have htotal (xs : List β) : total size (b :: xs) = size b + total size xs := rfl
    rw [htotal] at h
    by_cases hn : n < size b
    · cases n with
      | zero => exact Or.inl ⟨[], b :: blocks, rfl, rfl⟩
      | succ n =>
        exact Or.inr ⟨[], b, blocks, n + 1, rfl, (Nat.zero_add _).symm, Nat.succ_pos n, hn⟩
    · rcases ih (show n - size b ≤ total size blocks by omega) with
        ⟨xs, ys, rfl, hxs⟩ | ⟨xs, c, ys, k, rfl, hxs, hk⟩
      · exact Or.inl ⟨b :: xs, ys, rfl, by rw [htotal]; omega⟩
      · exact Or.inr ⟨b :: xs, c, ys, k, rfl, by rw [htotal]; omega, hk⟩

lemma Aligned.head {n : ℕ} {pieces : List ℕ} {blocks : List β}
    (h : Aligned size (n :: pieces) blocks) :
    ∃ xs ys, blocks = xs ++ ys ∧ n = total size xs := by
  obtain ⟨j, hj⟩ := h 1
  exact ⟨blocks.take j, blocks.drop j, (List.take_append_drop j blocks).symm, by simpa using hj⟩

end WordModel.Framing
