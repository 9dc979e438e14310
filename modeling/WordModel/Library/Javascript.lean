import WordModel.Library.Decimal
import Mathlib.Algebra.Order.Field.Rat
import Mathlib.Algebra.Order.Floor.Defs
import Mathlib.Data.List.DropRight
import Mathlib.Data.Rat.Floor
import Mathlib.Tactic.Linarith
import Mathlib.Data.FinEnum

/-! What Javascript makes of seven-bit texts and of buffers. -/

namespace WordModel.Javascript

open Decimal

/-- `none` is not a number. Texts that are short enough for a rational instead of a double
are the only ones that are read here. -/
abbrev Number := Option ℚ

def trim (s : Bytes) : Bytes := (s.dropWhile isSpace).rdropWhile isSpace

def exponent (s : Bytes) : Option ℤ :=
  if s = [] then some 0
  else if s.take 1 = [101] ∨ s.take 1 = [69] then
    let sign := ((s.drop 1).take 1).takeWhile isSign
    let digits := (s.drop 1).drop sign.length
    if digits ≠ [] ∧ ∀ c ∈ digits, isDigit c = true then
      some (if sign = [45] then -value digits else value digits)
    else none
  else none

def unsignedDecimal (s : Bytes) : Number :=
  let whole := s.takeWhile isDigit
  let rest := s.dropWhile isDigit
  let point : Bytes := if rest.take 1 = [46] then [46] else []
  let fraction := if point = [] then [] else (rest.drop 1).takeWhile isDigit
  if whole ++ fraction = [] then none
  else (exponent (rest.drop (point.length + fraction.length))).map
    (fun (e : ℤ) => (value (whole ++ fraction) : ℚ) * 10 ^ (e - (fraction.length : ℤ)))

def signedDecimal (s : Bytes) : Number :=
  let sign := (s.take 1).takeWhile isSign
  let n := unsignedDecimal (s.drop sign.length)
  if sign = [45] then n.map (fun q => -q) else n

def radix (s : Bytes) : Option ℕ :=
  if s.take 2 = [48, 120] ∨ s.take 2 = [48, 88] then some 16
  else if s.take 2 = [48, 111] ∨ s.take 2 = [48, 79] then some 8
  else if s.take 2 = [48, 98] ∨ s.take 2 = [48, 66] then some 2
  else none

def digitValue (c : UInt8) : ℕ :=
  if isDigit c then c.toNat - 48
  else if 97 ≤ c ∧ c ≤ 102 then c.toNat - 87
  else if 65 ≤ c ∧ c ≤ 70 then c.toNat - 55
  else 16

def nonDecimal (base : ℕ) (s : Bytes) : Number :=
  if s ≠ [] ∧ ∀ c ∈ s, digitValue c < base then
    some ((s.foldl (fun n c => base * n + digitValue c) 0 : ℕ) : ℚ)
  else none

/-- `+s` -/
def number (s : Bytes) : Number :=
  let t := trim s
  if t = [] then some 0
  else match radix t with
    | some base => nonDecimal base (t.drop 2)
    | none => signedDecimal t

lemma radix_eq_none {s : Bytes} (h : s[0]? = some 48 → ∀ c ∈ s[1]?, c.toNat < 58) :
    radix s = none := by
  have hletter (c : UInt8) (hc : 58 ≤ c.toNat) : s.take 2 ≠ [48, c] := by
    intro hs
    match s, hs with
    | a :: b :: s, hs =>
      obtain ⟨rfl, rfl⟩ : a = 48 ∧ b = c := by simpa using hs
      have hlt := h rfl b rfl
      omega
  rw [radix, if_neg (by simp [hletter 120, hletter 88]),
    if_neg (by simp [hletter 111, hletter 79]), if_neg (by simp [hletter 98, hletter 66])]

lemma unsignedDecimal_digits {ds : Bytes} (hds : ∀ c ∈ ds, isDigit c = true) (hne : ds ≠ []) :
    unsignedDecimal ds = some (value ds : ℚ) := by
  have hwhole : ds.takeWhile isDigit = ds := List.takeWhile_eq_self_iff.mpr hds
  have hrest : ds.dropWhile isDigit = [] := List.dropWhile_eq_nil_iff.mpr hds
  simp [unsignedDecimal, hwhole, hrest, exponent, hne]

lemma sign_eq_nil {c : UInt8} {s : Bytes} (h : isSign c = false) :
    ((c :: s).take 1).takeWhile isSign = [] := by
  simp [h]

lemma isSign_of_le {c : UInt8} (h : c.toNat ≤ 32) : isSign c = false := by
  simp only [isSign, Bool.or_eq_false_iff, beq_eq_false_iff_ne, ne_eq, ← UInt8.toNat_inj]
  constructor
  · change c.toNat ≠ 43
    omega
  · change c.toNat ≠ 45
    omega

lemma trim_digits {ds white : Bytes} (hds : ∀ c ∈ ds, isDigit c = true) (hne : ds ≠ [])
    (hwhite : ∀ c ∈ white, isSpace c = true) : trim (ds ++ white) = ds := by
  obtain ⟨d, ds, rfl⟩ := List.exists_cons_of_ne_nil hne
  have hfirst : (d :: ds ++ white).dropWhile isSpace = d :: ds ++ white := by
    simp [(isSpace_of_isDigit (hds d (by simp))).1]
  rw [trim, hfirst]
  induction white using List.reverseRecOn with
  | nil =>
    rw [List.append_nil, List.rdropWhile_eq_self_iff]
    intro _
    simp [(isSpace_of_isDigit (hds _ (List.getLast_mem (by simp)))).1]
  | append_singleton white c ih =>
    rw [← List.append_assoc, List.rdropWhile_concat_pos _ _ _ (hwhite c (by simp))]
    exact ih (fun x hx => hwhite x (by simp [hx])) (by simp [(isSpace_of_isDigit (hds d (by simp))).1])

lemma number_digits {ds white : Bytes} (hds : ∀ c ∈ ds, isDigit c = true) (hne : ds ≠ [])
    (hwhite : ∀ c ∈ white, isSpace c = true) : number (ds ++ white) = some (value ds : ℚ) := by
  have hradix : radix ds = none := by
    apply radix_eq_none
    intro _ c hc
    have hdigit := isDigit_iff.mp (hds c (List.mem_of_getElem? hc))
    omega
  have hsigned : signedDecimal ds = some (value ds : ℚ) := by
    obtain ⟨d, t, rfl⟩ := List.exists_cons_of_ne_nil hne
    have hsign := sign_eq_nil (s := t) (isSpace_of_isDigit (hds d (by simp))).2
    rw [signedDecimal, hsign, if_neg (by simp)]
    exact unsignedDecimal_digits hds hne
  simp only [number, trim_digits hds hne hwhite, if_neg hne, hradix, hsigned]

lemma number_of_digits {ds : Bytes} (hds : ∀ c ∈ ds, isDigit c = true) (hne : ds ≠ []) :
    number ds = some (value ds : ℚ) := by
  have hblanks : ∀ c ∈ ([] : Bytes), isSpace c = true := by simp
  have h := number_digits hds hne hblanks
  rwa [List.append_nil] at h

lemma unsignedDecimal_eq_none {ds rest : Bytes} {c : UInt8}
    (hds : ∀ c ∈ ds, isDigit c = true) (hc : c.toNat ≤ 32) :
    unsignedDecimal (ds ++ c :: rest) = none := by
  have hdigit : isDigit c = false := by
    rw [Bool.eq_false_iff, ne_eq, isDigit_iff]
    omega
  have hne (x : UInt8) (hx : 32 < x.toNat) : c ≠ x := by
    rintro rfl
    omega
  have hwhole : (ds ++ c :: rest).takeWhile isDigit = ds := by
    rw [List.takeWhile_append_of_pos hds, List.takeWhile_cons_of_neg (by simp [hdigit]),
      List.append_nil]
  have hrest : (ds ++ c :: rest).dropWhile isDigit = c :: rest := by
    rw [List.dropWhile_append_of_pos hds, List.dropWhile_cons_of_neg (by simp [hdigit])]
  simp [unsignedDecimal, hwhole, hrest, exponent, hne 46 (by decide), hne 101 (by decide),
    hne 69 (by decide)]

lemma number_eq_none {s ds rest : Bytes} {c : UInt8} (htrim : trim s = ds ++ c :: rest)
    (hds : ∀ c ∈ ds, isDigit c = true) (hc : c.toNat ≤ 32) : number s = none := by
  have hradix : radix (ds ++ c :: rest) = none := by
    apply radix_eq_none
    cases ds with
    | nil =>
      intro h
      obtain rfl : c = 48 := by simpa using h
      exact absurd hc (by decide)
    | cons d ds =>
      intro _ x hx
      cases ds with
      | nil =>
        obtain rfl : c = x := by simpa using hx
        omega
      | cons e ds =>
        obtain rfl : e = x := by simpa using hx
        have hdigit := isDigit_iff.mp (hds e (by simp))
        omega
  have hsign : ((ds ++ c :: rest).take 1).takeWhile isSign = [] := by
    cases ds with
    | nil => exact sign_eq_nil (isSign_of_le hc)
    | cons d ds => exact sign_eq_nil (isSpace_of_isDigit (hds d (by simp))).2
  have hsigned : signedDecimal (ds ++ c :: rest) = none := by
    rw [signedDecimal, hsign, if_neg (by simp)]
    exact unsignedDecimal_eq_none hds hc
  simp only [number, htrim, hradix, hsigned]
  rw [if_neg (by simp)]

lemma rdropWhile_keeps {p : UInt8 → Bool} (w rest : Bytes) {c : UInt8} (hc : p c = false) :
    ∃ rest', (w ++ c :: rest).rdropWhile p = w ++ c :: rest' := by
  induction rest using List.reverseRecOn with
  | nil => exact ⟨[], List.rdropWhile_concat_neg _ _ _ (by simp [hc])⟩
  | append_singleton rest x ih =>
    rw [← List.cons_append, ← List.append_assoc, List.rdropWhile_concat]
    split
    · exact ih
    · exact ⟨rest ++ [x], by simp⟩

lemma trim_keeps {w : Bytes} {c : UInt8} (rest : Bytes)
    (hw : ∀ x ∈ (w ++ [c]).head?, isSpace x = false) (hc : isSpace c = false) : ∃ rest', trim (w ++ c :: rest) = w ++ c :: rest' := by
  have hfirst : (w ++ c :: rest).dropWhile isSpace = w ++ c :: rest := by
    cases w with
    | nil => simp [hc]
    | cons d w => simp [hw d rfl]
  rw [trim, hfirst]
  exact rdropWhile_keeps w rest hc

def trunc : Number → ℤ
  | none => 0
  | some q => if q < 0 then ⌈q⌉ else ⌊q⌋

@[simp] lemma trunc_natCast (n : ℕ) : trunc (some (n : ℚ)) = n := by
  have hn : ¬ (n : ℚ) < 0 := not_lt.mpr (Nat.cast_nonneg n)
  rw [trunc, if_neg hn, Int.floor_natCast]

end WordModel.Javascript

namespace WordModel.Buffer

open Decimal Javascript

def sevenBit (bytes : Bytes) : Bytes := bytes.map (· &&& 127)

/-- `buf.toString('ascii', start, end)` -/
def toString (buf : Bytes) (start : ℕ) (stop : Number) : Bytes :=
  sevenBit ((buf.take (trunc stop).toNat).drop start)

def index (buf : Bytes) (x : Number) : ℕ :=
  if trunc x < 0 then (trunc x + buf.length).toNat else min (trunc x).toNat buf.length

/-- `buf.slice(start, end)` -/
def slice (buf : Bytes) (start stop : Number) : Bytes :=
  (buf.take (index buf stop)).drop (index buf start)

lemma index_natCast (buf : Bytes) (n : ℕ) : index buf (some (n : ℚ)) = min n buf.length := by
  have hn : ¬ ((n : ℤ) < 0) := by omega
  rw [index, trunc_natCast, if_neg hn, Int.toNat_natCast]

lemma slice_natCast (buf : Bytes) (m n : ℕ) :
    slice buf (some (m : ℚ)) (some (n : ℚ)) = (buf.take n).drop m := by
  rw [slice, index_natCast, index_natCast, ← List.take_eq_take_min]
  rcases Nat.le_total m buf.length with hm | hm
  · rw [Nat.min_eq_left hm]
  · rw [Nat.min_eq_right hm, List.drop_eq_nil_of_le, List.drop_eq_nil_of_le]
    · exact Nat.le_trans (List.length_take_le' n buf) hm
    · exact List.length_take_le' n buf

lemma toString_natCast (buf : Bytes) (m n : ℕ) :
    toString buf m (some (n : ℚ)) = sevenBit ((buf.take n).drop m) := by
  rw [toString, trunc_natCast, Int.toNat_natCast]

lemma sevenBit_eq {bytes : Bytes} (h : ∀ c ∈ bytes, c.toNat < 128) : sevenBit bytes = bytes := by
  have hbyte (c : UInt8) (hc : c.toNat < 128) : c &&& 127 = c := by
    rw [← UInt8.toNat_inj, UInt8.toNat_and]
    change c.toNat &&& (2 ^ 7 - 1) = c.toNat
    rw [Nat.and_two_pow_sub_one_eq_mod]
    omega
  induction bytes with
  | nil => rfl
  | cons c bytes ih =>
    have htail := ih (fun x hx => h x (List.mem_cons_of_mem _ hx))
    rw [sevenBit] at htail
    rw [sevenBit, List.map_cons, hbyte c (h c (by simp)), htail]

end WordModel.Buffer
