import Mathlib.Data.List.Basic
import Mathlib.Tactic.Common
import Mathlib.Order.Lattice

/-! The first index with the smallest value, and the loop that looks for it among the
values below a bound. -/

namespace WordModel.Least

variable {α : Type} [LinearOrder α] {d : ℕ → α} {n i : ℕ}

structure Minimiser (d : ℕ → α) (n i : ℕ) : Prop where
  lt : i < n
  le : ∀ j, j < n → d i ≤ d j
  first : ∀ j, j < i → d i < d j

def scan (d : ℕ → α) (n : ℕ) (start : α × ℕ) : α × ℕ :=
  (List.range n).foldl (fun least i => if d i < least.1 then (d i, i) else least) start

lemma scan_succ (d : ℕ → α) (n : ℕ) (start : α × ℕ) : scan d (n + 1) start =
    if d n < (scan d n start).1 then (d n, n) else scan d n start := by
  rw [scan, List.range_succ, List.foldl_append]
  rfl

lemma scan_cases (d : ℕ → α) (n : ℕ) (start : α × ℕ) :
    ((∀ j, j < n → start.1 ≤ d j) ∧ scan d n start = start) ∨
      ∃ i, Minimiser d n i ∧ d i < start.1 ∧ scan d n start = (d i, i) := by
  induction n with
  | zero => exact Or.inl ⟨by simp, rfl⟩
  | succ n ih =>
    rw [scan_succ]
    rcases ih with ⟨hle, he⟩ | ⟨i, hi, hlt, he⟩
    · rw [he]
      by_cases hn : d n < start.1
      · refine Or.inr ⟨n, ⟨Nat.lt_succ_self n, fun j hj => ?_, fun j hj => ?_⟩, hn, if_pos hn⟩
        · rcases Nat.lt_succ_iff_lt_or_eq.mp hj with hj' | rfl
          · exact hn.le.trans (hle j hj')
          · exact le_rfl
        · exact hn.trans_le (hle j hj)
      · refine Or.inl ⟨fun j hj => ?_, if_neg hn⟩
        rcases Nat.lt_succ_iff_lt_or_eq.mp hj with hj' | rfl
        · exact hle j hj'
        · exact not_lt.mp hn
    · rw [he]
      right
      by_cases hn : d n < d i
      · refine ⟨n, ⟨Nat.lt_succ_self n, fun j hj => ?_, fun j hj => ?_⟩, hn.trans hlt, if_pos hn⟩
        · rcases Nat.lt_succ_iff_lt_or_eq.mp hj with hj' | rfl
          · exact hn.le.trans (hi.le j hj')
          · exact le_rfl
        · exact hn.trans_le (hi.le j hj)
      · refine ⟨i, ⟨Nat.lt_succ_of_lt hi.lt, fun j hj => ?_, hi.first⟩, hlt, if_neg hn⟩
        rcases Nat.lt_succ_iff_lt_or_eq.mp hj with hj' | rfl
        · exact hi.le j hj'
        · exact not_lt.mp hn

lemma exists_minimiser (d : ℕ → α) (h : 0 < n) : ∃ i, Minimiser d n i := by
  rcases scan_cases d n (d 0, 0) with ⟨hle, _⟩ | ⟨i, hi, _, _⟩
  · exact ⟨0, h, hle, by simp⟩
  · exact ⟨i, hi⟩

lemma scan_eq (h : 0 < n) (start : α × ℕ) : ∃ i, Minimiser d n i ∧
    scan d n start = if d i < start.1 then (d i, i) else start := by
  rcases scan_cases d n start with ⟨hle, he⟩ | ⟨i, hi, hlt, he⟩
  · obtain ⟨i, hi⟩ := exists_minimiser d h
    exact ⟨i, hi, by rw [he, if_neg (not_lt.mpr (hle i hi.lt))]⟩
  · exact ⟨i, hi, by rw [he, if_pos hlt]⟩

lemma Minimiser.unique {j : ℕ} (hi : Minimiser d n i) (hj : Minimiser d n j) : i = j := by
  rcases Nat.lt_trichotomy i j with h | h | h
  · exact absurd (hj.first i h) (not_lt.mpr (hi.le j hj.lt))
  · exact h
  · exact absurd (hi.first j h) (not_lt.mpr (hj.le i hi.lt))

lemma Minimiser.congr {d' : ℕ → α} (h : Minimiser d n i) (hd : ∀ j, j < n → d j = d' j) :
    Minimiser d' n i := by
  refine ⟨h.lt, fun j hj => ?_, fun j hj => ?_⟩
  · rw [← hd i h.lt, ← hd j hj]
    exact h.le j hj
  · rw [← hd i h.lt, ← hd j (Nat.lt_trans hj h.lt)]
    exact h.first j hj

end WordModel.Least
