import Mathlib.Data.List.Dedup
import Mathlib.Data.List.Induction
import Mathlib.Data.List.TakeWhile
import Mathlib.Tactic.Common

/-! The elements of a list in the order in which they come first, and where they stand once
one of them is left out. -/

namespace WordModel.Firsts

variable {α : Type} [DecidableEq α]

def firsts (l : List α) : List α := l.reverse.dedup.reverse

@[simp] lemma mem_firsts {l : List α} {a : α} : a ∈ firsts l ↔ a ∈ l := by simp [firsts]

lemma nodup_firsts (l : List α) : (firsts l).Nodup :=
  List.nodup_reverse.mpr (List.nodup_dedup _)

lemma firsts_concat (l : List α) (a : α) :
    firsts (l ++ [a]) = if a ∈ l then firsts l else firsts l ++ [a] := by
  rw [firsts, List.reverse_append, List.reverse_singleton, List.singleton_append]
  by_cases h : a ∈ l
  · rw [if_pos h, List.dedup_cons_of_mem (List.mem_reverse.mpr h), firsts]
  · rw [if_neg h, List.dedup_cons_of_notMem (fun ha => h (List.mem_reverse.mp ha)),
      List.reverse_cons, firsts]

lemma firsts_append (l l' : List α) : firsts l <+: firsts (l ++ l') := by
  induction l' using List.reverseRecOn with
  | nil => simp
  | append_singleton l' a ih =>
    rw [← List.append_assoc, firsts_concat]
    split
    · exact ih
    · exact ih.trans (List.prefix_append _ _)

lemma firsts_takeWhile {l : List α} {a : α} (h : a ∈ l) :
    ∃ rest, firsts l = firsts (l.takeWhile (· ≠ a)) ++ a :: rest := by
  obtain ⟨us, rest, rfl, hnot⟩ := List.eq_append_cons_of_mem h
  have htake : (us ++ a :: rest).takeWhile (· ≠ a) = us := by
    have hbefore : ∀ x ∈ us, decide (x ≠ a) = true :=
      fun x hx => decide_eq_true fun he => hnot (he ▸ hx)
    rw [List.takeWhile_append_of_pos hbefore, List.takeWhile_cons_of_neg (by simp),
      List.append_nil]
  obtain ⟨tail, htail⟩ := firsts_append (us ++ [a]) rest
  rw [firsts_concat, if_neg hnot, List.append_assoc, List.append_assoc] at htail
  exact ⟨tail, by rw [htake]; exact htail.symm⟩

lemma getElem?_filter_firsts {l : List α} {i : ℕ} {a b : α} (h : (firsts l)[i]? = some b) :
    ((firsts l).filter (· ≠ a))[i]? = some b ↔ b ∈ l.takeWhile (· ≠ a) := by
  have hnodup := nodup_firsts l
  have hb : b ∈ l := mem_firsts.mp (List.mem_of_getElem? h)
  by_cases ha : a ∈ l
  · obtain ⟨rest, hrest⟩ := firsts_takeWhile ha
    rw [hrest] at h hnodup ⊢
    obtain ⟨-, htail, hdisjoint⟩ := List.nodup_append.mp hnodup
    have hfilter : (firsts (l.takeWhile (· ≠ a)) ++ a :: rest).filter (· ≠ a) =
        firsts (l.takeWhile (· ≠ a)) ++ rest := by
      rw [List.filter_append, List.filter_cons_of_neg (by simp), List.filter_eq_self.mpr,
        List.filter_eq_self.mpr]
      · exact fun x hx => decide_eq_true fun he => (List.nodup_cons.mp htail).1 (he ▸ hx)
      · exact fun x hx => decide_eq_true (hdisjoint x hx a (by simp))
    rw [hfilter, ← mem_firsts (l := l.takeWhile _)]
    rcases Nat.lt_or_ge i (firsts (l.takeWhile (· ≠ a))).length with hi | hi
    · rw [List.getElem?_append_left hi] at h ⊢
      exact iff_of_true h (List.mem_of_getElem? h)
    · rw [List.getElem?_append_right hi] at h ⊢
      refine iff_of_false (fun hlate => ?_) (fun hmem => hdisjoint b hmem b (List.mem_of_getElem? h) rfl)
      have hnext : (a :: rest)[i - (firsts (l.takeWhile (· ≠ a))).length + 1]? = some b := hlate
      have hlt := (List.getElem?_eq_some_iff.mp h).1
      have hsame := (List.getElem?_inj hlt htail).mp (h.trans hnext.symm)
      omega
  · have hself : l.takeWhile (· ≠ a) = l :=
      List.takeWhile_eq_self_iff.mpr fun x hx => decide_eq_true fun he => ha (he ▸ hx)
    have hall : (firsts l).filter (· ≠ a) = firsts l :=
      List.filter_eq_self.mpr fun x hx => decide_eq_true fun he => ha (he ▸ mem_firsts.mp hx)
    rw [hself, hall]
    exact iff_of_true h hb

end WordModel.Firsts
