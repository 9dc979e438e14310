import Mathlib.Data.Int.Notation
import Mathlib.Data.List.Induction
import Mathlib.Data.List.TakeWhile
import Mathlib.Tactic.Ring

/-! Numbers in ASCII digits, as C's formatted output writes them and its formatted input
reads them. -/

namespace WordModel.Decimal

abbrev Bytes := List UInt8

def isDigit (c : UInt8) : Bool := 48 ≤ c && c ≤ 57

def isSpace (c : UInt8) : Bool := c == 32 || (9 ≤ c && c ≤ 13)

def isSign (c : UInt8) : Bool := c == 43 || c == 45

def ascii (c : Char) : UInt8 := c.toNat.toUInt8

def decimal (n : ℕ) : Bytes := (Nat.toDigits 10 n).map ascii

def value (ds : Bytes) : ℕ := ds.foldl (fun n c => 10 * n + (c.toNat - 48)) 0

/-- `%0wd` of `printf` -/
def printInt (width : ℕ) (n : ℤ) : Bytes :=
  let sign : Bytes := if n < 0 then [45] else []
  let digits := decimal n.natAbs
  sign ++ List.replicate (width - (sign.length + digits.length)) 48 ++ digits

/-- `%wd` of `scanf`: the number and what is left, unless there is no number. -/
def scanInt (width : ℕ) (s : Bytes) : Option (ℤ × Bytes) :=
  let s := s.dropWhile isSpace
  let sign := ((s.take width).take 1).takeWhile isSign
  let digits := ((s.take width).drop sign.length).takeWhile isDigit
  if digits = [] then none
  else some (if sign = [45] then -value digits else value digits,
    s.drop (sign.length + digits.length))

lemma isDigit_iff {c : UInt8} : isDigit c = true ↔ 48 ≤ c.toNat ∧ c.toNat ≤ 57 := by
  simp [isDigit, UInt8.le_iff_toNat_le]

lemma value_from (n : ℕ) (ds : Bytes) : ds.foldl (fun n c => 10 * n + (c.toNat - 48)) n =
    n * 10 ^ ds.length + value ds := by
  induction ds generalizing n with
  | nil => simp [value]
  | cons d ds ih =>
    rw [List.foldl_cons, ih, List.length_cons]
    have hd : value (d :: ds) = (d.toNat - 48) * 10 ^ ds.length + value ds := by
      rw [value, List.foldl_cons, ih, Nat.mul_zero, Nat.zero_add]
    rw [hd]
    ring

lemma value_append (xs ys : Bytes) : value (xs ++ ys) = value xs * 10 ^ ys.length + value ys := by
  rw [value, List.foldl_append, value_from]
  rfl

lemma value_zeros (n : ℕ) (ds : Bytes) : value (List.replicate n 48 ++ ds) = value ds := by
  have hz : value (List.replicate n 48) = 0 := by
    induction n with
    | zero => rfl
    | succ n ih =>
      rw [List.replicate_succ', value_append, ih]
      rfl
  rw [value_append, hz]
  omega

lemma value_lt {ds : Bytes} (h : ∀ c ∈ ds, isDigit c = true) : value ds < 10 ^ ds.length := by
  induction ds using List.reverseRecOn with
  | nil => decide
  | append_singleton ds c ih =>
    have hc := isDigit_iff.mp (h c (by simp))
    have hv : value [c] = c.toNat - 48 := by simp [value]
    have hds := ih (fun d hd => h d (by simp [hd]))
    rw [value_append, List.length_append, List.length_singleton, Nat.pow_succ]
    omega

lemma ascii_toNat {c : Char} (h : c.isDigit = true) :
    (ascii c).toNat = c.toNat ∧ isDigit (ascii c) = true := by
  have hc : 48 ≤ c.toNat ∧ c.toNat ≤ 57 := by
    simpa [Char.isDigit, UInt32.le_iff_toNat_le] using h
  have hn : (ascii c).toNat = c.toNat := by
    simp only [ascii, Nat.toUInt8_eq, UInt8.toNat_ofNat']
    omega
  rw [isDigit_iff, hn]
  exact ⟨rfl, hc⟩

lemma decimal_isDigit (n : ℕ) : ∀ c ∈ decimal n, isDigit c = true := by
  intro c hc
  obtain ⟨d, hd, rfl⟩ := List.mem_map.mp hc
  exact (ascii_toNat (Nat.isDigit_of_mem_toDigits (by decide) (by decide) hd)).2

lemma value_decimal (n : ℕ) : value (decimal n) = n := by
  have hmap (cs : List Char) (h : ∀ c ∈ cs, c.isDigit = true) (k : ℕ) :
      (cs.map ascii).foldl (fun n c => 10 * n + (c.toNat - 48)) k = Nat.ofDigitChars 10 cs k := by
    induction cs generalizing k with
    | nil => simp
    | cons c cs ih =>
      rw [List.map_cons, List.foldl_cons, Nat.ofDigitChars_cons, (ascii_toNat (h c (by simp))).1]
      exact ih (fun d hd => h d (by simp [hd])) _
  rw [value, decimal, hmap _ (fun c hc => Nat.isDigit_of_mem_toDigits (by decide) (by decide) hc),
    Nat.ofDigitChars_ten_toDigits]

lemma decimal_ne_nil (n : ℕ) : decimal n ≠ [] := by
  simp [decimal]

lemma decimal_length_le_iff (n : ℕ) {k : ℕ} (hk : 0 < k) :
    (decimal n).length ≤ k ↔ n < 10 ^ k := by
  rw [decimal, List.length_map]
  exact Nat.length_toDigits_le_iff (by decide) hk

lemma decimal_of_lt {n : ℕ} (h : n < 10) : decimal n = [UInt8.ofNat (48 + n)] := by
  rw [decimal, Nat.toDigits_of_lt_base h, List.map_singleton, ascii,
    Nat.toNat_digitChar_of_lt_ten h]

lemma printInt_natCast (width n : ℕ) :
    printInt width n = List.replicate (width - (decimal n).length) 48 ++ decimal n := by
  have hn : ¬ (n : ℤ) < 0 := by omega
  simp [printInt, hn]

lemma printInt_isDigit (width n : ℕ) : ∀ c ∈ printInt width n, isDigit c = true := by
  rw [printInt_natCast]
  intro c hc
  rcases List.mem_append.mp hc with hc | hc
  · rw [List.eq_of_mem_replicate hc]
    rfl
  · exact decimal_isDigit n c hc

lemma printInt_ne_nil (width n : ℕ) : printInt width n ≠ [] := by
  rw [printInt_natCast]
  simp [decimal_ne_nil]

lemma value_printInt (width n : ℕ) : value (printInt width n) = n := by
  rw [printInt_natCast, value_zeros, value_decimal]

lemma printInt_length {width n : ℕ} (hw : 0 < width) (h : n < 10 ^ width) :
    (printInt width n).length = width := by
  have hlen := (decimal_length_le_iff n hw).mpr h
  rw [printInt_natCast, List.length_append, List.length_replicate]
  omega

lemma isSpace_of_isDigit {c : UInt8} (h : isDigit c = true) :
    isSpace c = false ∧ isSign c = false := by
  rw [isDigit_iff] at h
  constructor
  · simp only [isSpace, Bool.or_eq_false_iff, Bool.and_eq_false_iff, beq_eq_false_iff_ne,
      decide_eq_false_iff_not, UInt8.le_iff_toNat_le, ne_eq, ← UInt8.toNat_inj]
    refine ⟨?_, Or.inr ?_⟩
    · change c.toNat ≠ 32
      omega
    · change ¬ c.toNat ≤ 13
      omega
  · simp only [isSign, Bool.or_eq_false_iff, beq_eq_false_iff_ne, ne_eq, ← UInt8.toNat_inj]
    constructor
    · change c.toNat ≠ 43
      omega
    · change c.toNat ≠ 45
      omega

lemma isDigit_of_isSpace {c : UInt8} (h : isSpace c = true) : isDigit c = false := by
  rw [Bool.eq_false_iff]
  intro hdigit
  rw [(isSpace_of_isDigit hdigit).1] at h
  exact Bool.false_ne_true h

lemma scanInt_of_isDigit {width : ℕ} {d : UInt8} {s : Bytes} (hd : isDigit d = true)
    (hwidth : 0 < width) : scanInt width (d :: s) =
      some ((value (((d :: s).take width).takeWhile isDigit) : ℤ),
        (d :: s).drop (((d :: s).take width).takeWhile isDigit).length) := by
  obtain ⟨w, rfl⟩ : ∃ w, width = w + 1 := ⟨width - 1, by omega⟩
  obtain ⟨hspace, hsign⟩ := isSpace_of_isDigit hd
  have hskip : (d :: s).dropWhile isSpace = d :: s := by simp [hspace]
  have hfield : (((d :: s).take (w + 1)).take 1).takeWhile isSign = [] := by simp [hsign]
  have hdigits : ((d :: s).take (w + 1)).takeWhile isDigit ≠ [] := by simp [hd]
  simp only [scanInt, hskip, hfield, List.length_nil, List.drop_zero, hdigits, if_false,
    Nat.zero_add]
  rw [if_neg (by simp)]

lemma scanInt_digits {width : ℕ} {ds : Bytes} (rest : Bytes)
    (hds : ∀ c ∈ ds, isDigit c = true) (hne : ds ≠ []) (hlen : ds.length ≤ width)
    (hrest : ds.length = width ∨ ∀ c ∈ rest.head?, isDigit c = false) :
    scanInt width (ds ++ rest) = some ((value ds : ℤ), rest) := by
  have hdigits : ((ds ++ rest).take width).takeWhile isDigit = ds := by
    rw [List.take_append, List.take_of_length_le hlen, List.takeWhile_append_of_pos hds]
    rcases hrest with hfull | hstop
    · rw [hfull, Nat.sub_self, List.take_zero, List.takeWhile_nil, List.append_nil]
    · cases rest with
      | nil => simp
      | cons c rest =>
        have hc := hstop c rfl
        cases hn : width - ds.length with
        | zero => simp
        | succ n => simp [hc]
  obtain ⟨d, t, rfl⟩ := List.exists_cons_of_ne_nil hne
  rw [List.cons_append, scanInt_of_isDigit (hds d (by simp)) (by simp at hlen; omega),
    ← List.cons_append, hdigits, List.drop_left]

lemma scanInt_continues {width : ℕ} {ds : Bytes} {c : UInt8} (rest : Bytes)
    (hds : ∀ c ∈ ds, isDigit c = true) (hne : ds ≠ []) (hlen : ds.length < width)
    (hc : isDigit c = true) : ∃ n rest', scanInt width (ds ++ c :: rest) = some (((n : ℕ) : ℤ), rest') ∧
      10 * value ds ≤ n ∧ n < 10 ^ width := by
  obtain ⟨k, hk⟩ : ∃ k, width - ds.length = k + 1 := ⟨width - ds.length - 1, by omega⟩
  have hread : ((ds ++ c :: rest).take width).takeWhile isDigit =
      ds ++ c :: (rest.take k).takeWhile isDigit := by
    rw [List.take_append, List.take_of_length_le (by omega), hk, List.take_succ_cons,
      List.takeWhile_append_of_pos hds, List.takeWhile_cons_of_pos hc]
  have hall : ∀ x ∈ ds ++ c :: (rest.take k).takeWhile isDigit, isDigit x = true := by
    rw [← hread]
    exact fun x hx => List.mem_takeWhile_imp hx
  have hwidth : (ds ++ c :: (rest.take k).takeWhile isDigit).length ≤ width := by
    rw [← hread]
    exact Nat.le_trans (List.takeWhile_sublist _).length_le (List.length_take_le _ _)
  have hlt := Nat.lt_of_lt_of_le (value_lt hall) (Nat.pow_le_pow_right (by decide) hwidth)
  have hle : 10 * value ds ≤ value (ds ++ c :: (rest.take k).takeWhile isDigit) := by
    rw [value_append, List.length_cons, Nat.pow_succ, Nat.mul_comm 10]
    exact Nat.le_add_right_of_le (Nat.mul_le_mul_left _
      (Nat.le_mul_of_pos_left 10 (Nat.pow_pos (by decide))))
  obtain ⟨d, t, rfl⟩ := List.exists_cons_of_ne_nil hne
  have hwidth := Nat.lt_of_le_of_lt (Nat.zero_le _) hlen
  have hscan := scanInt_of_isDigit (s := t ++ c :: rest) (hds d (by simp)) hwidth
  rw [← List.cons_append, hread] at hscan
  exact ⟨_, _, hscan, hle, hlt⟩

lemma scanInt_one_eq_none {s : Bytes}
    (h : ∀ c ∈ (s.dropWhile isSpace).head?, isDigit c = false) : scanInt 1 s = none := by
  cases hs : s.dropWhile isSpace with
  | nil => simp [scanInt, hs]
  | cons c t =>
    have hc : isDigit c = false := h c (by rw [hs]; rfl)
    cases hsign : isSign c with
    | false => simp [scanInt, hs, hsign, hc]
    | true => simp [scanInt, hs, hsign]

def signed (sign ds : Bytes) : ℤ := if sign = [45] then -value ds else value ds

structure Numeral (width : ℕ) (sign ds : Bytes) : Prop where
  single : sign = [] ∨ ∃ c, isSign c = true ∧ sign = [c]
  digits : ∀ c ∈ ds, isDigit c = true
  ne_nil : ds ≠ []
  length : sign.length + ds.length ≤ width

lemma value_le_append (ds more : Bytes) : value ds ≤ value (ds ++ more) := by
  rw [value_append]
  exact Nat.le_add_right_of_le (Nat.le_mul_of_pos_right _ (Nat.pow_pos (by decide)))

section

variable {width : ℕ} {sign ds : Bytes} (h : Numeral width sign ds)

include h

lemma Numeral.value_lt : value ds < 10 ^ width :=
  Nat.lt_of_lt_of_le (Decimal.value_lt h.digits)
    (Nat.pow_le_pow_right (by decide) (Nat.le_of_add_left_le h.length))

lemma Numeral.skip (rest : Bytes) :
    (sign ++ (ds ++ rest)).dropWhile isSpace = sign ++ (ds ++ rest) := by
  obtain ⟨d, t, rfl⟩ := List.exists_cons_of_ne_nil h.ne_nil
  rcases h.single with rfl | ⟨c, hc, rfl⟩
  · simp [(isSpace_of_isDigit (h.digits d (by simp))).1]
  · have hspace : isSpace c = false := by
      rcases (by simpa [isSign] using hc : c = 43 ∨ c = 45) with rfl | rfl
      · rfl
      · rfl
    simp [hspace]

lemma Numeral.sign_eq (rest : Bytes) :
    (((sign ++ (ds ++ rest)).take width).take 1).takeWhile isSign = sign := by
  obtain ⟨w, rfl⟩ : ∃ w, width = w + 1 := by
    have hne := List.length_pos_iff.mpr h.ne_nil
    have hlen := h.length
    exact ⟨width - 1, by omega⟩
  obtain ⟨d, t, rfl⟩ := List.exists_cons_of_ne_nil h.ne_nil
  rcases h.single with rfl | ⟨c, hc, rfl⟩
  · simp [(isSpace_of_isDigit (h.digits d (by simp))).2]
  · simp [hc]

lemma Numeral.scanInt {white : Bytes} (hwhite : ∀ c ∈ white, isSpace c = true) (rest : Bytes) :
    ∃ more rest', Numeral width sign (ds ++ more) ∧
      scanInt width (white ++ (sign ++ (ds ++ rest))) = some (signed sign (ds ++ more), rest') := by
  have hlen := h.length
  obtain ⟨more, hmore⟩ : ∃ more,
      more = (rest.take (width - sign.length - ds.length)).takeWhile isDigit := ⟨_, rfl⟩
  have hread : (((sign ++ (ds ++ rest)).take width).drop sign.length).takeWhile isDigit =
      ds ++ more := by
    rw [List.take_append, List.take_of_length_le (by omega), List.drop_left, List.take_append,
      List.take_of_length_le (by omega), List.takeWhile_append_of_pos h.digits, hmore]
  refine ⟨more, (sign ++ (ds ++ rest)).drop (sign.length + (ds ++ more).length),
    ⟨h.single, fun c hc => ?_, by simp [h.ne_nil], ?_⟩, ?_⟩
  · rcases List.mem_append.mp hc with hc | hc
    · exact h.digits c hc
    · rw [hmore] at hc
      exact List.mem_takeWhile_imp hc
  · have hle := (List.takeWhile_prefix
      (l := rest.take (width - sign.length - ds.length)) isDigit).length_le
    rw [← hmore, List.length_take] at hle
    rw [List.length_append]
    omega
  · rw [Decimal.scanInt, List.dropWhile_append_of_pos hwhite, h.skip, h.sign_eq, hread,
      if_neg (by simp [h.ne_nil])]
    rfl

end

lemma scanInt_eq_some {width : ℕ} {s rest : Bytes} {n : ℤ} (h : scanInt width s = some (n, rest)) :
    ∃ white sign ds, s = white ++ (sign ++ (ds ++ rest)) ∧ (∀ c ∈ white, isSpace c = true) ∧
      Numeral width sign ds ∧ n = signed sign ds := by
  have hsplit := List.takeWhile_append_dropWhile (p := isSpace) (l := s)
  rw [scanInt] at h
  generalize ht : s.dropWhile isSpace = t at h hsplit
  generalize hsign : ((t.take width).take 1).takeWhile isSign = sign at h
  generalize hds : ((t.take width).drop sign.length).takeWhile isDigit = ds at h
  split at h
  · cases h
  rename_i hne
  obtain ⟨rfl, rfl⟩ := Prod.mk.inj (Option.some.inj h)
  have hprefix : sign <+: t.take width := by
    rw [← hsign]
    exact (List.takeWhile_prefix _).trans (List.take_prefix _ _)
  have hdigits : ds <+: (t.take width).drop sign.length := by
    rw [← hds]
    exact List.takeWhile_prefix _
  obtain ⟨u, hu⟩ := hprefix
  rw [← hu, List.drop_left] at hdigits
  obtain ⟨v, rfl⟩ := hdigits
  have hall : t = sign ++ (ds ++ (v ++ t.drop width)) := by
    rw [← List.append_assoc ds, ← List.append_assoc, hu, List.take_append_drop]
  have hdrop : t.drop (sign.length + ds.length) = v ++ t.drop width := by
    conv_lhs => rw [hall, ← List.append_assoc, ← List.length_append, List.drop_left]
  refine ⟨s.takeWhile isSpace, sign, ds, ?_, fun c hc => List.mem_takeWhile_imp hc,
    ⟨?_, fun c hc => ?_, hne, ?_⟩, rfl⟩
  · rw [hdrop, ← hall, hsplit]
  · cases sign with
    | nil => exact Or.inl rfl
    | cons c sign =>
      right
      have hmem : ∀ x ∈ c :: sign, isSign x = true := by
        rw [← hsign]
        exact fun x hx => List.mem_takeWhile_imp hx
      have hlen := (List.takeWhile_prefix (l := (t.take width).take 1) isSign).length_le
      rw [hsign, List.length_take, List.length_cons] at hlen
      obtain rfl := List.length_eq_zero_iff.mp (show sign.length = 0 by omega)
      exact ⟨c, hmem c (by simp), rfl⟩
  · rw [← hds] at hc
    exact List.mem_takeWhile_imp hc
  · have hlen := congrArg List.length hu
    rw [List.length_append, List.length_append, List.length_take] at hlen
    omega

end WordModel.Decimal
