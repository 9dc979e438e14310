import WordModel.NodeJs.ModelAdaptor

/-! The rounds of the `data` handler's loop, on any bytes at all. -/

namespace WordModel.NodeJs

open Checked Decimal Javascript

inductive Decodes : Bytes → Bytes → Prop
  | first {data} : Decodes data data
  | next {data buf} : (decodePacket data).remaining ≠ [] →
      Decodes (decodePacket data).remaining buf → Decodes data buf

structure Terminates (data : Bytes) : Prop where
  handled : ∃ cs, Handled data cs
  shorter : ∀ buf, Decodes data buf → (decodePacket buf).remaining.length < buf.length

def headerNumber (buf : Bytes) : Number := number (Buffer.sevenBit (buf.take 4))

/-- Each header leads on: forward by a byte or more, or back from the end but not all the
way to the beginning. -/
inductive LeadsOn : Bytes → Prop
  | done : LeadsOn []
  | forward {buf n} : headerNumber buf = some n → -4 ≤ n → LeadsOn (buf.drop ⌊5 + n⌋.toNat) →
      LeadsOn buf
  | back {buf n} : headerNumber buf = some n → n ≤ -6 → 0 < buf.length + ⌈5 + n⌉ →
      LeadsOn (buf.drop (buf.length + ⌈5 + n⌉).toNat) → LeadsOn buf

lemma remaining_eq (buf : Bytes) : (decodePacket buf).remaining =
    buf.drop (Buffer.index buf ((headerNumber buf).map (fun n => 5 + n))) := by
  have hheader : Buffer.toString buf 0 (some ((headerLength - 1 : ℕ) : ℚ)) =
      Buffer.sevenBit (buf.take 4) := by
    rw [Buffer.toString_natCast]
    rfl
  have hfive : ((headerLength : ℕ) : ℚ) = 5 := rfl
  simp only [decodePacket, hheader, hfive]
  rw [← headerNumber, Buffer.slice, Buffer.index_natCast, Nat.min_self, List.take_length]

lemma index_forward (buf : Bytes) {n : ℚ} (hn : -4 ≤ n) :
    Buffer.index buf (some (5 + n)) = min ⌊5 + n⌋.toNat buf.length ∧ 0 < ⌊5 + n⌋.toNat := by
  have hpos : 1 ≤ ⌊5 + n⌋ := by
    rw [Int.le_floor]
    push_cast
    linarith only [hn]
  have hnot : ¬ (5 + n) < 0 := by
    push Not
    linarith only [hn]
  constructor
  · rw [Buffer.index, trunc, if_neg hnot, if_neg (by omega)]
  · omega

lemma index_back (buf : Bytes) {n : ℚ} (hn : n ≤ -6) :
    Buffer.index buf (some (5 + n)) = (⌈5 + n⌉ + buf.length).toNat ∧ ⌈5 + n⌉ < 0 := by
  have hneg : ⌈5 + n⌉ ≤ -1 := by
    rw [Int.ceil_le]
    push_cast
    linarith only [hn]
  have hlt : (5 + n) < 0 := by linarith only [hn]
  constructor
  · rw [Buffer.index, trunc, if_pos hlt, if_pos (by omega)]
  · omega

lemma index_between (buf : Bytes) {n : ℚ} (hlow : -6 < n) (hhigh : n < -4) :
    Buffer.index buf (some (5 + n)) = 0 := by
  have htrunc : trunc (some (5 + n)) = 0 := by
    rw [trunc]
    split
    · rw [Int.ceil_eq_iff]
      push_cast
      constructor
      · linarith only [hlow]
      · linarith only [‹5 + n < 0›]
    · rw [Int.floor_eq_iff]
      push_cast
      constructor
      · linarith only [‹¬ 5 + n < 0›]
      · linarith only [hhigh]
  rw [Buffer.index, htrunc]
  simp

lemma index_nan (buf : Bytes) : Buffer.index buf none = 0 := by
  simp [Buffer.index, trunc]

lemma remaining_shorter {buf : Bytes} (h : (decodePacket buf).remaining.length < buf.length) :
    ∃ n, headerNumber buf = some n ∧ (-4 ≤ n ∧ (decodePacket buf).remaining =
        buf.drop ⌊5 + n⌋.toNat ∨
      n ≤ -6 ∧ 0 < buf.length + ⌈5 + n⌉ ∧ (decodePacket buf).remaining =
        buf.drop (buf.length + ⌈5 + n⌉).toNat) := by
  rw [remaining_eq] at h ⊢
  rw [List.length_drop] at h
  cases hn : headerNumber buf with
  | none =>
    rw [hn, Option.map_none, index_nan] at h
    omega
  | some n =>
    rw [hn, Option.map_some] at h
    rw [Option.map_some]
    refine ⟨n, rfl, ?_⟩
    rcases le_or_gt (-4) n with hle | hgt
    · left
      rw [(index_forward buf hle).1, ← List.drop_eq_drop_min]
      exact ⟨hle, rfl⟩
    · rcases le_or_gt n (-6) with hle | hgt'
      · right
        rw [(index_back buf hle).1, Int.add_comm]
        rw [(index_back buf hle).1] at h
        exact ⟨hle, by omega, rfl⟩
      · rw [index_between buf hgt' hgt] at h
        omega

lemma remaining_forward {buf : Bytes} {n : ℚ} (h : headerNumber buf = some n) (hn : -4 ≤ n)
    (hne : buf ≠ []) : (decodePacket buf).remaining = buf.drop ⌊5 + n⌋.toNat ∧
      (decodePacket buf).remaining.length < buf.length := by
  have hpos := List.length_pos_iff.mpr hne
  obtain ⟨hindex, hstart⟩ := index_forward buf hn
  have heq : (decodePacket buf).remaining = buf.drop ⌊5 + n⌋.toNat := by
    rw [remaining_eq, h, Option.map_some, hindex, ← List.drop_eq_drop_min]
  refine ⟨heq, ?_⟩
  rw [heq, List.length_drop]
  omega

lemma remaining_back {buf : Bytes} {n : ℚ} (h : headerNumber buf = some n) (hn : n ≤ -6)
    (hpos : 0 < buf.length + ⌈5 + n⌉) :
    (decodePacket buf).remaining = buf.drop (buf.length + ⌈5 + n⌉).toNat ∧
      (decodePacket buf).remaining.length < buf.length := by
  obtain ⟨hindex, hneg⟩ := index_back buf hn
  have heq : (decodePacket buf).remaining = buf.drop (buf.length + ⌈5 + n⌉).toNat := by
    rw [remaining_eq, h, Option.map_some, hindex, Int.add_comm]
  refine ⟨heq, ?_⟩
  rw [heq, List.length_drop]
  omega

lemma Terminates.remaining {data : Bytes} (h : Terminates data)
    (hne : (decodePacket data).remaining ≠ []) : Terminates (decodePacket data).remaining := by
  refine ⟨?_, fun buf hbuf => h.shorter buf (.next hne hbuf)⟩
  obtain ⟨cs, hcs⟩ := h.handled
  obtain ⟨ds, hds, -⟩ := (handled_more hne).mp hcs
  exact ⟨ds, hds⟩

lemma Terminates.round {data : Bytes} (hlt : (decodePacket data).remaining.length < data.length)
    (h : (decodePacket data).remaining ≠ [] → Terminates (decodePacket data).remaining) :
    Terminates data := by
  constructor
  · by_cases hr : (decodePacket data).remaining = []
    · exact ⟨_, (handled_last hr).mpr rfl⟩
    · obtain ⟨ds, hds⟩ := (h hr).handled
      exact ⟨_, (handled_more hr).mpr ⟨ds, hds, rfl⟩⟩
  · intro buf hbuf
    cases hbuf with
    | first => exact hlt
    | next hne hrest => exact (h hne).shorter buf hrest

lemma Terminates.leadsOn {data : Bytes} (h : Terminates data) : LeadsOn data := by
  induction hlength : data.length using Nat.strong_induction_on generalizing data with
  | h k ih =>
    have hlt := h.shorter data .first
    have hrest : LeadsOn (decodePacket data).remaining := by
      by_cases hr : (decodePacket data).remaining = []
      · rw [hr]
        exact .done
      · exact ih _ (hlength ▸ hlt) (h.remaining hr) rfl
    obtain ⟨n, hn, ⟨hle, heq⟩ | ⟨hle, hpos, heq⟩⟩ := remaining_shorter hlt
    · rw [heq] at hrest
      exact .forward hn hle hrest
    · rw [heq] at hrest
      exact .back hn hle hpos hrest

lemma LeadsOn.terminates {data : Bytes} (h : LeadsOn data) (hne : data ≠ []) :
    Terminates data := by
  induction h with
  | done => exact absurd rfl hne
  | forward hn hle _ ih =>
    obtain ⟨heq, hlt⟩ := remaining_forward hn hle hne
    exact .round hlt (fun hr => heq ▸ ih (heq ▸ hr))
  | back hn hle hpos _ ih =>
    obtain ⟨heq, hlt⟩ := remaining_back hn hle hpos
    exact .round hlt (fun hr => heq ▸ ih (heq ▸ hr))

theorem rounds_law (data : Bytes) (hne : data ≠ []) : Terminates data ↔ LeadsOn data :=
  ⟨Terminates.leadsOn, fun h => h.terminates hne⟩

theorem rounds_law_short : Terminates [48, 48, 48, 50, 50, 97, 0] := by
  have hdigits : ∀ c ∈ ([48, 48, 48, 50] : Bytes), isDigit c = true := by simp [isDigit]
  have hheader : headerNumber [48, 48, 48, 50, 50, 97, 0] = some 2 :=
    number_of_digits hdigits (List.cons_ne_nil _ _)
  have hend : ⌊(5 : ℚ) + 2⌋.toNat = 7 := by
    norm_num
    rfl
  have hleads : LeadsOn [48, 48, 48, 50, 50, 97, 0] := by
    refine .forward hheader (by norm_num) ?_
    rw [hend]
    exact .done
  exact (rounds_law _ (List.cons_ne_nil _ _)).mpr hleads

theorem rounds_law_fails : ¬ Terminates [104, 101, 108, 108, 111, 0] := by
  -- an event that begins in the middle of a body is decoded for ever
  intro h
  have hlt := h.shorter _ .first
  have hnan : headerNumber [104, 101, 108, 108, 111, 0] = none := rfl
  obtain ⟨n, hn, -⟩ := remaining_shorter hlt
  rw [hnan] at hn
  cases hn

end WordModel.NodeJs
