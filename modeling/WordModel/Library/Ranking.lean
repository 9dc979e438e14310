import Mathlib.Data.List.Sort
import Mathlib.Order.Basic
import Mathlib.Tactic.Common

/-! The first elements of a list in order, kept while the elements come in one by one. -/

namespace WordModel.Ranking

variable {α β : Type}

section

variable (r : α → α → Prop) [DecidableRel r]

def place (a : α) (l : List α) : ℕ := (l.takeWhile (fun b => ¬ r a b)).length

lemma place_le (a : α) (l : List α) : place r a l ≤ l.length :=
  (List.takeWhile_sublist _).length_le

lemma place_take (a : α) (l : List α) (n : ℕ) : place r a (l.take n) = min n (place r a l) := by
  induction l generalizing n with
  | nil => simp [place]
  | cons b l ih =>
    cases n with
    | zero => simp [place]
    | succ n =>
      have hn := ih n
      rw [place, place] at hn ⊢
      by_cases h : r a b
      · simp [h]
      · simp only [List.take_succ_cons, h, not_false_eq_true, decide_true,
          List.takeWhile_cons_of_pos, List.length_cons, hn]
        omega

lemma orderedInsert_eq_place (a : α) (l : List α) :
    l.orderedInsert r a = l.take (place r a l) ++ a :: l.drop (place r a l) := by
  induction l with
  | nil => rfl
  | cons b l ih =>
    by_cases h : r a b
    · simp [place, h]
    · have hsucc : place r a (b :: l) = place r a l + 1 := by simp [place, h]
      rw [List.orderedInsert_cons, if_neg h, ih, hsucc]
      rfl

lemma take_orderedInsert (a : α) (l : List α) (n : ℕ) :
    ((l.take n).orderedInsert r a).take n = (l.orderedInsert r a).take n := by
  induction l generalizing n with
  | nil => simp
  | cons b l ih =>
    cases n with
    | zero => simp
    | succ n =>
      rw [List.take_succ_cons, List.orderedInsert_cons, List.orderedInsert_cons]
      by_cases h : r a b
      · rw [if_pos h, if_pos h, List.take_succ_cons, List.take_succ_cons]
        cases n with
        | zero => rfl
        | succ n =>
          rw [List.take_succ_cons, List.take_succ_cons, List.take_take,
            Nat.min_eq_left (Nat.le_succ n)]
      · rw [if_neg h, if_neg h, List.take_succ_cons, List.take_succ_cons, ih]

variable {r} [IsTrans α r]

lemma rel_iff_place_le {a b : α} {l : List α} (h : l.Pairwise r) {k : ℕ} (hk : l[k]? = some b) :
    r a b ↔ place r a l ≤ k := by
  induction l generalizing k with
  | nil => simp at hk
  | cons c l ih =>
    obtain ⟨hc, hl⟩ := List.pairwise_cons.mp h
    by_cases hac : r a c
    · have hzero : place r a (c :: l) = 0 := by simp [place, hac]
      refine ⟨fun _ => by omega, fun _ => ?_⟩
      cases k with
      | zero =>
        obtain rfl : c = b := by simpa using hk
        exact hac
      | succ k => exact IsTrans.trans a c b hac (hc b (List.mem_of_getElem? hk))
    · have hsucc : place r a (c :: l) = place r a l + 1 := by simp [place, hac]
      cases k with
      | zero =>
        obtain rfl : c = b := by simpa using hk
        simp [hac, hsucc]
      | succ k =>
        rw [ih hl (k := k) (by simpa using hk), hsucc]
        omega

lemma place_eq_countP {a : α} {l : List α} (h : l.Pairwise r) :
    place r a l = l.countP (fun b => ¬ r a b) := by
  induction l with
  | nil => rfl
  | cons c l ih =>
    obtain ⟨hc, hl⟩ := List.pairwise_cons.mp h
    by_cases hac : r a c
    · have hrest : ∀ b ∈ l, r a b := fun b hb => IsTrans.trans a c b hac (hc b hb)
      have hzero : l.countP (fun b => ¬ r a b) = 0 :=
        List.countP_eq_zero.mpr (by simpa using hrest)
      rw [List.countP_cons_of_neg (by simpa using hac), hzero]
      simp [place, hac]
    · have hsucc : place r a (c :: l) = place r a l + 1 := by simp [place, hac]
      rw [hsucc, ih hl, List.countP_cons_of_pos (by simpa using hac)]

variable [Std.Total r]

lemma place_insertionSort (a : α) (l : List α) :
    place r a (l.insertionSort r) = l.countP (fun b => ¬ r a b) := by
  rw [place_eq_countP (List.pairwise_insertionSort r l)]
  exact (List.perm_insertionSort r l).countP_eq _

lemma insertionSort_concat [Std.Antisymm r] (l : List α) (a : α) :
    (l ++ [a]).insertionSort r = (l.insertionSort r).orderedInsert r a := by
  refine List.Perm.eq_of_pairwise' (r := r) (List.pairwise_insertionSort r _)
    ((List.pairwise_insertionSort r l).orderedInsert a _) ?_
  refine (List.perm_insertionSort r _).trans ((List.perm_append_singleton a l).trans ?_)
  exact ((List.perm_insertionSort r l).cons a).symm.trans (List.perm_orderedInsert r a _).symm

end

section

variable [LinearOrder α] [LinearOrder β]

def Outranks (key : α → β) (a b : α) : Prop := key b < key a ∨ key b = key a ∧ a ≤ b

variable {key : α → β}

instance : DecidableRel (Outranks key) := fun a b =>
  inferInstanceAs (Decidable (key b < key a ∨ key b = key a ∧ a ≤ b))

instance : IsTrans α (Outranks key) where
  trans a b c := by
    rintro (hab | ⟨hab, hle⟩) (hbc | ⟨hbc, hle'⟩)
    · exact Or.inl (hbc.trans hab)
    · exact Or.inl (hbc ▸ hab)
    · exact Or.inl (hab ▸ hbc)
    · exact Or.inr ⟨hbc.trans hab, hle.trans hle'⟩

instance : Std.Total (Outranks key) where
  total a b := by
    rcases lt_trichotomy (key a) (key b) with h | h | h
    · exact Or.inr (Or.inl h)
    · rcases le_total a b with hle | hle
      · exact Or.inl (Or.inr ⟨h.symm, hle⟩)
      · exact Or.inr (Or.inr ⟨h, hle⟩)
    · exact Or.inl (Or.inl h)

instance : Std.Antisymm (Outranks key) where
  antisymm a b := by
    rintro (hab | ⟨hab, hle⟩) (hba | ⟨hba, hle'⟩)
    · exact (lt_asymm hab hba).elim
    · exact (hab.ne hba.symm).elim
    · exact (hba.ne hab.symm).elim
    · exact le_antisymm hle hle'

lemma outranks_iff {a b : α} (h : b < a) : Outranks key a b ↔ key b < key a := by
  rw [Outranks, or_iff_left]
  exact fun hb => (hb.2.trans_lt h).false

end

end WordModel.Ranking
