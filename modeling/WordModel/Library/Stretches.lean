import Mathlib.Data.List.Basic
import Mathlib.Tactic.Common

/-! A stream cut at its separators: the stretches that one of them closes, and the one that
is still open; and the stretches that are not empty. -/

namespace WordModel.Stretches

variable {α : Type} (p : α → Bool)

def closed (cs : List α) : List (List α) := (cs.splitOnP p).dropLast

def opened (cs : List α) : List α := (cs.splitOnP p).getLastD []

variable {p}

lemma splitOnP_concat {c : α} (hc : p c = false) (cs : List α) :
    ∃ init last, cs.splitOnP p = init ++ [last] ∧
      (cs ++ [c]).splitOnP p = init ++ [last ++ [c]] := by
  induction cs with
  | nil =>
    refine ⟨[], [], List.splitOnP_nil, ?_⟩
    rw [List.nil_append, List.splitOnP_cons_eq_if_modifyHead, hc, List.splitOnP_nil]
    rfl
  | cons x cs ih =>
    obtain ⟨init, last, hcs, hcat⟩ := ih
    rw [List.cons_append, List.splitOnP_cons_eq_if_modifyHead, List.splitOnP_cons_eq_if_modifyHead,
      hcs, hcat]
    by_cases hx : p x = true
    · rw [if_pos hx, if_pos hx]
      exact ⟨[] :: init, last, rfl, rfl⟩
    · rw [if_neg hx, if_neg hx]
      cases init with
      | nil => exact ⟨[], x :: last, rfl, rfl⟩
      | cons s init => exact ⟨(x :: s) :: init, last, rfl, rfl⟩

lemma concat_of_separator {c : α} (hc : p c = true) (cs : List α) :
    closed p (cs ++ [c]) = closed p cs ++ [opened p cs] ∧ opened p (cs ++ [c]) = [] := by
  have hne := List.splitOnP_ne_nil p cs
  have hcat : (cs ++ [c]).splitOnP p = cs.splitOnP p ++ [[]] := by
    rw [List.splitOnP_append_cons cs [] hc, List.splitOnP_nil]
  have hlast : opened p cs = (cs.splitOnP p).getLast hne := by
    rw [opened, List.getLastD_eq_getLast?, List.getLast?_eq_some_getLast hne, Option.getD_some]
  constructor
  · rw [closed, closed, hcat, hlast, List.dropLast_concat, List.dropLast_concat_getLast]
  · rw [opened, hcat]
    simp

lemma concat_of_not {c : α} (hc : p c = false) (cs : List α) :
    closed p (cs ++ [c]) = closed p cs ∧ opened p (cs ++ [c]) = opened p cs ++ [c] := by
  obtain ⟨init, last, hcs, hcat⟩ := splitOnP_concat hc cs
  rw [closed, closed, opened, opened, hcs, hcat]
  constructor
  · rw [List.dropLast_concat, List.dropLast_concat]
  · simp

variable (p) in
def runs (cs : List α) : List (List α × Option α) :=
  ((cs.splitOnP p).zip ((cs.filter p).map some ++ [none])).filter (fun r => !r.1.isEmpty)

lemma runs_of_forall {w : List α} (hw : ∀ x ∈ w, p x = false) :
    runs p w = if w.isEmpty then [] else [(w, none)] := by
  have hfilter : w.filter p = [] := by
    rw [List.filter_eq_nil_iff]
    exact fun x hx => by simp [hw x hx]
  rw [runs, List.splitOnP_eq_singleton hw, hfilter]
  cases w with
  | nil => rfl
  | cons x w => rfl

lemma runs_append_cons {w : List α} (hw : ∀ x ∈ w, p x = false) {c : α} (hc : p c = true)
    (cs : List α) :
    runs p (w ++ c :: cs) = (if w.isEmpty then [] else [(w, some c)]) ++ runs p cs := by
  have hfilter : (w ++ c :: cs).filter p = c :: cs.filter p := by
    rw [List.filter_append, List.filter_cons_of_pos hc, List.filter_eq_nil_iff.mpr, List.nil_append]
    exact fun x hx => by simp [hw x hx]
  rw [runs, List.splitOnP_append_cons_of_forall_mem hw c hc, hfilter]
  cases w with
  | nil => rfl
  | cons x w => rfl

lemma exists_run {w : List α} (hw : ∀ x ∈ w, p x = false) (hne : w ≠ []) (cs : List α) :
    ∃ r ∈ runs p (w ++ cs), w.length ≤ r.1.length := by
  induction cs generalizing w with
  | nil =>
    refine ⟨(w, none), ?_, Nat.le_refl _⟩
    rw [List.append_nil, runs_of_forall hw, if_neg (by simpa using hne)]
    simp
  | cons c cs ih =>
    by_cases hc : p c = true
    · refine ⟨(w, some c), ?_, Nat.le_refl _⟩
      rw [runs_append_cons hw hc, if_neg (by simpa using hne)]
      simp
    · have hcat : ∀ x ∈ w ++ [c], p x = false := by
        simpa [or_imp, forall_and, hc] using hw
      obtain ⟨r, hr, hle⟩ := ih hcat (by simp)
      rw [← List.append_cons] at hr
      rw [List.length_append, List.length_singleton] at hle
      exact ⟨r, hr, Nat.le_of_succ_le hle⟩

end WordModel.Stretches
