import WordModel.Packet.Basic

/-! Which headers `decode_header` accepts, and what it takes from them. -/

namespace WordModel

open Checked Decimal

namespace Packet

/-- `decode_header`, after the read of a header into a packet used before -/
def receive (p : Packet) (header : Bytes) : Packet × Bool := (p.store 0 header).decodeHeader

def WellFormed (header : Bytes) : Prop :=
  (∀ c ∈ header, isDigit c = true) ∧ value (header.take 4) ≤ maxBodyLength ∧
    ∃ type : PacketType, value (header.drop 4) = type.code

/-- After white space there is a number, of four bytes at most, that no length is. -/
def OutOfBounds (header : Bytes) : Prop :=
  ∃ white sign ds rest, header = white ++ (sign ++ (ds ++ rest)) ∧
    (∀ c ∈ white, isSpace c = true) ∧ Numeral 4 sign ds ∧
    (signed sign ds < 0 ∨ (maxBodyLength : ℤ) < signed sign ds)

structure Decides (p : Packet) (header : Bytes) : Prop where
  accepts : (p.receive header).2 = true ↔ WellFormed header
  stores : (p.receive header).2 = true → (p.receive header).1.bodyLength = value (header.take 4) ∧
    (p.receive header).1.type = value (header.drop 4)
  rejects : (p.receive header).2 = false → (p.receive header).1.bodyLength = 0
  alone : ∀ q : Packet, (q.receive header).2 = (p.receive header).2 ∧
    ((p.receive header).2 = true → (q.receive header).1.bodyLength = (p.receive header).1.bodyLength ∧
      (q.receive header).1.type = (p.receive header).1.type)

lemma nonzero_of_numeral {white sign ds : Bytes} (hwhite : ∀ c ∈ white, isSpace c = true)
    (h : Numeral 4 sign ds) : ∀ c ∈ white ++ (sign ++ ds), decide (c ≠ 0) = true := by
  intro c hc
  have hsome : isSpace c = true ∨ isSign c = true ∨ isDigit c = true := by
    rcases List.mem_append.mp hc with hc | hc
    · exact Or.inl (hwhite c hc)
    · rcases List.mem_append.mp hc with hc | hc
      · rcases h.single with rfl | ⟨d, hd, rfl⟩
        · cases hc
        · exact Or.inr (Or.inl (List.mem_singleton.mp hc ▸ hd))
      · exact Or.inr (Or.inr (h.digits c hc))
  rw [decide_eq_true_eq]
  rintro rfl
  exact absurd hsome (by decide)

lemma outOfBounds_takeWhile {header : Bytes} :
    OutOfBounds (header.takeWhile (· ≠ 0)) ↔ OutOfBounds header := by
  constructor
  · rintro ⟨white, sign, ds, rest, he, h⟩
    refine ⟨white, sign, ds, rest ++ header.dropWhile (· ≠ 0), ?_, h⟩
    conv_lhs => rw [← List.takeWhile_append_dropWhile (p := (· ≠ 0)) (l := header), he]
    simp
  · rintro ⟨white, sign, ds, rest, rfl, hwhite, hnum, hbound⟩
    refine ⟨white, sign, ds, rest.takeWhile (· ≠ 0), ?_, hwhite, hnum, hbound⟩
    rw [← List.append_assoc sign, ← List.append_assoc,
      List.takeWhile_append_of_pos (nonzero_of_numeral hwhite hnum)]
    simp

lemma signed_append {sign ds more : Bytes}
    (h : signed sign ds < 0 ∨ (maxBodyLength : ℤ) < signed sign ds) :
    signed sign (ds ++ more) < 0 ∨ (maxBodyLength : ℤ) < signed sign (ds ++ more) := by
  have hle := value_le_append ds more
  simp only [signed] at h ⊢
  split
  · rename_i hsign
    rw [if_pos hsign] at h
    omega
  · rename_i hsign
    rw [if_neg hsign] at h
    omega

lemma outOfBounds_iff {s : Bytes} : OutOfBounds s ↔
    ∃ n rest, scanInt 4 s = some (n, rest) ∧ (n < 0 ∨ (maxBodyLength : ℤ) < n) := by
  constructor
  · rintro ⟨white, sign, ds, rest, rfl, hwhite, hnum, hbound⟩
    obtain ⟨more, rest', -, hscan⟩ := hnum.scanInt hwhite rest
    exact ⟨_, rest', hscan, signed_append hbound⟩
  · rintro ⟨n, rest, hscan, hbound⟩
    obtain ⟨white, sign, ds, rfl, hwhite, hnum, rfl⟩ := scanInt_eq_some hscan
    exact ⟨white, sign, ds, rest, rfl, hwhite, hnum, hbound⟩

lemma storeInt_bounds {old : ℕ} (hold : old ≤ maxBodyLength) {s rest : Bytes} {n : ℤ}
    (h : scanInt 4 s = some (n, rest)) :
    maxBodyLength < storeInt old n ↔ n < 0 ∨ (maxBodyLength : ℤ) < n := by
  obtain ⟨white, sign, ds, -, -, hnum, rfl⟩ := scanInt_eq_some h
  have hlt := hnum.value_lt
  have : maxBodyLength = 512 := rfl
  rw [storeInt, signed]
  split <;> omega

lemma decodeHeader_rejects (p : Packet) :
    p.decodeHeader.2 = false ↔ OutOfBounds (p.data.take headerLength) := by
  rw [← outOfBounds_takeWhile, outOfBounds_iff]
  have hle := p.bodyLength_le
  cases hscan : scanInt 4 ((p.data.take headerLength).takeWhile (· ≠ 0)) with
  | none =>
    have hnot : ¬ maxBodyLength < p.bodyLength := by omega
    simp only [decodeHeader, hscan, hnot, dite_false]
    simp
  | some r =>
    obtain ⟨n, rest⟩ := r
    have hdecode : p.decodeHeader.2 = false ↔ maxBodyLength < storeInt p.bodyLength n := by
      simp only [decodeHeader, hscan]
      split
      · rename_i hlt
        simp [hlt]
      · rename_i hnot
        simpa using hnot
    rw [hdecode, storeInt_bounds hle hscan]
    simp

lemma decodeHeader_rejected {p : Packet} (h : p.decodeHeader.2 = false) :
    p.decodeHeader.1.bodyLength = 0 := by
  cases hscan : scanInt 4 ((p.data.take headerLength).takeWhile (· ≠ 0)) with
  | none =>
    simp only [decodeHeader, hscan] at h ⊢
    split at h
    · rename_i hlt
      simp [hlt]
    · cases h
  | some r =>
    simp only [decodeHeader, hscan] at h ⊢
    split at h
    · rename_i hlt
      simp [hlt]
    · cases h

section

variable {header : Bytes} (hlen : header.length = headerLength)

include hlen

lemma store_header (p : Packet) : (p.store 0 header).data.take headerLength = header := by
  have hfits : header.length ≤ headerLength + maxBodyLength := by
    rw [hlen]
    exact Nat.le_add_right _ _
  rw [← hlen, store_take hfits]

lemma receive_rejects (p : Packet) : (p.receive header).2 = false ↔ OutOfBounds header := by
  rw [receive, decodeHeader_rejects, store_header hlen]

lemma receive_wellFormed (h : WellFormed header) (p : Packet) :
    (p.receive header).2 = true ∧ (p.receive header).1.bodyLength = value (header.take 4) ∧
      (p.receive header).1.type = value (header.drop 4) := by
  obtain ⟨hdigits, hbound, -⟩ := h
  have hfive : header.length = 5 := hlen
  obtain ⟨c, hc⟩ : ∃ c, header.drop 4 = [c] := by
    apply List.length_eq_one_iff.mp
    rw [List.length_drop, hfive]
  have hsplit : (p.store 0 header).data.take headerLength = header.take 4 ++ [] ++ [c] := by
    rw [store_header hlen, List.append_nil, ← hc, List.take_append_drop]
  have hfour : (header.take 4).length + ([] : Bytes).length = 4 := by
    rw [List.length_take, hfive]
    rfl
  have hdigit : isDigit c = true := hdigits c (List.mem_of_mem_drop (hc ▸ List.mem_singleton_self c))
  have hne : header.take 4 ≠ [] := by
    intro hnil
    rw [hnil] at hfour
    cases hfour
  have hdecode := decodeHeader_digits (fun x hx => hdigits x (List.mem_of_mem_take hx)) hne hfour
    (by simp) hdigit hbound hsplit
  rw [receive, hdecode, hc]
  exact ⟨rfl, rfl, rfl⟩

end

theorem decode_law (p : Packet) (header : Bytes) (hlen : header.length = headerLength) :
    p.Decides header ↔ WellFormed header ∨ OutOfBounds header := by
  constructor
  · intro h
    by_cases hform : WellFormed header
    · exact Or.inl hform
    · have hreject := mt h.accepts.mp hform
      exact Or.inr ((receive_rejects hlen p).mp (Bool.eq_false_iff.mpr hreject))
  · rintro (hform | hbound)
    · obtain ⟨haccept, hlength, htype⟩ := receive_wellFormed hlen hform p
      refine ⟨by simp [haccept, hform], fun _ => ⟨hlength, htype⟩, by simp [haccept], fun q => ?_⟩
      obtain ⟨haccept', hlength', htype'⟩ := receive_wellFormed hlen hform q
      rw [haccept, haccept', hlength, hlength', htype, htype']
      exact ⟨rfl, fun _ => ⟨rfl, rfl⟩⟩
    · have hreject (q : Packet) : (q.receive header).2 = false := (receive_rejects hlen q).mpr hbound
      have hform : ¬ WellFormed header := by
        intro hform
        have haccept := (receive_wellFormed hlen hform p).1
        rw [hreject p] at haccept
        cases haccept
      have hzero : (p.receive header).1.bodyLength = 0 := by
        rw [receive]
        apply decodeHeader_rejected
        rw [← receive, hreject p]
      refine ⟨by simp [hreject p, hform], by simp [hreject p], fun _ => hzero, fun q => ?_⟩
      rw [hreject p, hreject q]
      exact ⟨rfl, nofun⟩

theorem decode_law_negative :
    let p := fresh (List.replicate 517 0) (by rw [List.length_replicate]; rfl)
    p.Decides [32, 45, 49, 50, 49] := by
  -- ` -12` is read as a number, and a length is never negative
  refine (decode_law _ _ rfl).mpr (Or.inr ⟨[32], [45], [49, 50], [49], rfl, by simp [isSpace], ?_, ?_⟩)
  · exact ⟨Or.inr ⟨45, rfl, rfl⟩, by simp [isDigit], List.cons_ne_nil _ _, by decide⟩
  · exact Or.inl (by decide)

theorem decode_law_fails :
    let p := fresh (List.replicate 517 0) (by rw [List.length_replicate]; rfl)
    ¬ p.Decides [104, 101, 108, 108, 111] := by
  -- five letters are taken for the header of an empty packet
  intro p h
  have hnone : scanInt 4 [104, 101, 108, 108, 111] = none := rfl
  have hbound : ¬ OutOfBounds [104, 101, 108, 108, 111] := by
    rw [outOfBounds_iff, hnone]
    simp
  have haccept : (p.receive [104, 101, 108, 108, 111]).2 = true := by
    rw [← Bool.not_eq_false, receive_rejects rfl]
    exact hbound
  have hdigit := (h.accepts.mp haccept).1 104 (by simp)
  cases hdigit

end Packet

end WordModel
