import WordModel.Library.Javascript
import WordModel.Packet.Basic

/-! Packets as the client writes and reads them. -/

namespace WordModel.NodeJs

open Checked Decimal Javascript

def headerLength : ℕ := 4 + 1
def maxBodyLength : ℕ := 512

def packetNumber : PacketType → ℕ
  | .train => 0
  | .predict => 1
  | .prediction => 2
  | .summary => 3

def writeZeros (length i : ℕ) (buf : Bytes) : ℕ × Bytes :=
  if (i : ℚ) < 3 - (length : ℚ) / 10 then writeZeros length (i + 1) (fill buf i [48])
  else (i, buf)
termination_by 3 - i
decreasing_by
  have hlt : (i : ℚ) < 3 := by
    have hlength : (0 : ℚ) ≤ length := Nat.cast_nonneg length
    linarith only [‹(i : ℚ) < 3 - (length : ℚ) / 10›, hlength]
  have hi : i < 3 := by exact_mod_cast hlt
  omega

def encodePacket (type : ℕ) (string buf : Bytes) : Bytes :=
  let length := string.length + 1
  let (i, buf) := writeZeros length 0 buf
  let buf := fill buf i (decimal length)
  let buf := fill buf 4 (decimal type)
  let buf := fill buf headerLength (string ++ [0])
  Buffer.slice buf (some 0) (some (headerLength + length : ℕ))

structure Decoded where
  type : Number
  string : Bytes
  remaining : Bytes

def decodePacket (buf : Bytes) : Decoded :=
  let length := number (Buffer.toString buf 0 (some (headerLength - 1 : ℕ)))
  let type := number (Buffer.toString buf (headerLength - 1) (some headerLength))
  let string := Buffer.toString buf headerLength (length.map (fun n => headerLength + n - 1))
  ⟨type, string, Buffer.slice buf (length.map (fun n => headerLength + n)) (some buf.length)⟩

/-- What the two decoders should make of the encoded bytes. -/
structure Agrees (type : PacketType) (string bytes : Bytes) : Prop where
  decodeHeader : ∀ p : Packet, ∃ q, (p.store 0 bytes).decodeHeader = (q, true) ∧
    q.type = type.code ∧ q.bodyLength = string.length + 1 ∧
    q.body.take q.bodyLength = string ++ [0]
  decodePacket : ∀ rest, decodePacket (bytes ++ rest) = ⟨some (packetNumber type), string, rest⟩

def padding (length : ℕ) : ℕ :=
  if length < 10 then 3 else if length < 20 then 2 else if length < 30 then 1 else 0

def written (length : ℕ) : ℕ :=
  if length < 20 then 4 else if length < 30 then 3 else if length < 100 then 2 else 3

def unwritten (length : ℕ) (buf : Bytes) : Bytes := (buf.take 4).drop (written length)

lemma padding_iff (length i : ℕ) :
    (i : ℚ) < 3 - (length : ℚ) / 10 ↔ i < padding length := by
  have htenth : (i : ℚ) < 3 - (length : ℚ) / 10 ↔ 10 * i + length < 30 := by
    have hcast : (10 * i + length < 30) ↔ (10 * (i : ℚ) + length < 30) := by norm_cast
    rw [hcast]
    constructor <;> intro h <;> linarith
  rw [htenth, padding]
  split_ifs <;> omega

lemma fill_zeros {buf : Bytes} {n : ℕ} (h : n ≤ buf.length) (bytes : Bytes) :
    fill (fill buf 0 (List.replicate n 48)) n bytes =
      fill buf 0 (List.replicate n 48 ++ bytes) := by
  have hfits : (List.replicate n (48 : UInt8)).length ≤ buf.length := by rwa [List.length_replicate]
  have hfill := fill_append hfits bytes
  rwa [List.length_replicate] at hfill

lemma writeZeros_from (length : ℕ) {buf : Bytes} (hbuf : 4 ≤ buf.length) {i : ℕ}
    (hi : i ≤ padding length) : writeZeros length i (fill buf 0 (List.replicate i 48)) =
      (padding length, fill buf 0 (List.replicate (padding length) 48)) := by
  obtain ⟨k, hk⟩ := Nat.exists_eq_add_of_le hi
  induction k generalizing i with
  | zero =>
    obtain rfl : i = padding length := by omega
    rw [writeZeros, if_neg (by simp [padding_iff])]
  | succ k ih =>
    have hlt : i < padding length := by omega
    have hpadding : padding length ≤ 3 := by
      rw [padding]
      split_ifs <;> omega
    rw [writeZeros, if_pos ((padding_iff length i).mpr hlt), fill_zeros (by omega),
      ← List.replicate_succ']
    exact ih hlt (by omega)

lemma digits_length {length : ℕ} (h : length ≤ maxBodyLength) :
    padding length + (decimal length).length = written length := by
  have : maxBodyLength = 512 := rfl
  have h₀ := List.length_pos_iff.mpr (decimal_ne_nil length)
  have h₁ := decimal_length_le_iff length (show 0 < 1 by decide)
  have h₂ := decimal_length_le_iff length (show 0 < 2 by decide)
  have h₃ := decimal_length_le_iff length (show 0 < 3 by decide)
  rw [padding, written]
  split_ifs <;> omega

def lengthText (length : ℕ) : Bytes := List.replicate (padding length) 48 ++ decimal length

lemma lengthText_isDigit (length : ℕ) : ∀ c ∈ lengthText length, isDigit c = true := by
  intro c hc
  rcases List.mem_append.mp hc with hc | hc
  · rw [List.eq_of_mem_replicate hc]
    rfl
  · exact decimal_isDigit length c hc

lemma lengthText_ne_nil (length : ℕ) : lengthText length ≠ [] := by
  simp [lengthText, decimal_ne_nil]

lemma value_lengthText (length : ℕ) : value (lengthText length) = length := by
  rw [lengthText, value_zeros, value_decimal]

lemma lengthText_length {length : ℕ} (h : length ≤ maxBodyLength) :
    (lengthText length).length = written length := by
  rw [lengthText, List.length_append, List.length_replicate, digits_length h]

lemma encodePacket_eq {type : ℕ} {string buf : Bytes} (htype : type < 10)
    (hstring : string.length + 1 ≤ maxBodyLength)
    (hbuf : buf.length = headerLength + maxBodyLength) :
    encodePacket type string buf = lengthText (string.length + 1) ++
      unwritten (string.length + 1) buf ++ [UInt8.ofNat (48 + type)] ++ (string ++ [0]) := by
  have hmax : maxBodyLength = 512 := rfl
  have hfive : headerLength = 5 := rfl
  have hwritten : written (string.length + 1) ≤ 4 := by
    rw [written]
    split_ifs <;> omega
  have hlength := lengthText_length hstring
  have hdigits := digits_length hstring
  have hfits : padding (string.length + 1) ≤ buf.length := by omega
  have hzeros : fill (fill buf 0 (List.replicate (padding (string.length + 1)) 48))
      (padding (string.length + 1)) (decimal (string.length + 1)) =
      fill buf 0 (lengthText (string.length + 1)) := fill_zeros hfits _
  have hloop : writeZeros (string.length + 1) 0 buf = (padding (string.length + 1),
      fill buf 0 (List.replicate (padding (string.length + 1)) 48)) := by
    have hfour : 4 ≤ buf.length := by omega
    have hh := writeZeros_from (string.length + 1) hfour (Nat.zero_le _)
    rwa [List.replicate_zero, show fill buf 0 [] = buf by simp [fill]] at hh
  have hfirst : (fill buf 0 (lengthText (string.length + 1))).take 4 =
      lengthText (string.length + 1) ++ unwritten (string.length + 1) buf := by
    rw [fill_eq (by omega), List.take_zero, List.nil_append, Nat.zero_add, List.take_append,
      List.take_of_length_le (by omega), hlength, ← List.drop_take]
    rfl
  have htypeText : decimal type = [UInt8.ofNat (48 + type)] := decimal_of_lt htype
  simp only [encodePacket, hloop, hzeros, htypeText]
  rw [show (some 0 : Number) = some ((0 : ℕ) : ℚ) from rfl, Buffer.slice_natCast, List.drop_zero]
  have hbody : headerLength + (string.length + 1) = headerLength + (string ++ [0]).length := by
    simp
  have hfour (xs : Bytes) (x : UInt8) (h : 4 + [x].length ≤ xs.length) :
      (fill xs 4 [x]).take 5 = xs.take 4 ++ [x] := fill_take h
  have hall : headerLength + (string ++ [0]).length ≤ headerLength + maxBodyLength := by
    rw [List.length_append, List.length_singleton]
    omega
  rw [hbody, fill_take (by simpa only [fill_length, hbuf] using hall), hfive,
    hfour _ _ (by rw [fill_length, List.length_singleton]; omega), hfirst]

lemma decodePacket_of_length {text tail : Bytes} {c : UInt8} {n : ℕ} (htext : text.length = 4)
    (hn : 0 < n) (h : number (Buffer.sevenBit text) = some (n : ℚ)) :
    decodePacket (text ++ c :: tail) =
      ⟨number (Buffer.sevenBit [c]), Buffer.sevenBit (tail.take (n - 1)), tail.drop n⟩ := by
  have hfour : headerLength - 1 = 4 := rfl
  have hheader : (text ++ [c]).length = headerLength := by
    rw [List.length_append, htext]
    rfl
  have hlength : ((text ++ [c] ++ tail).take 4).drop 0 = text := by
    rw [List.append_assoc, List.take_left' htext, List.drop_zero]
  have htype : ((text ++ [c] ++ tail).take headerLength).drop 4 = [c] := by
    rw [List.take_left' hheader, List.drop_left' htext]
  have hstop : (headerLength : ℚ) + n - 1 = (headerLength + (n - 1) : ℕ) := by
    rw [Nat.cast_add, Nat.cast_sub hn, Nat.cast_one]
    ring
  have hstring : ((text ++ [c] ++ tail).take (headerLength + (n - 1))).drop headerLength =
      tail.take (n - 1) := by
    rw [List.drop_take, List.drop_left' hheader, Nat.add_sub_cancel_left]
  have hrest : (text ++ [c] ++ tail).drop (headerLength + n) = tail.drop n := by
    rw [← List.drop_drop, List.drop_left' hheader]
  rw [List.append_cons]
  simp only [decodePacket, hfour, Buffer.toString_natCast, hlength, h, htype, Option.map_some,
    hstop, hstring]
  rw [← Nat.cast_add, Buffer.slice_natCast, List.take_length, hrest]

lemma decodePacket_of_none {buf : Bytes} (h : number (Buffer.sevenBit (buf.take 4)) = none) :
    (decodePacket buf).string = [] ∧ (decodePacket buf).remaining = buf := by
  have hnone : number (Buffer.toString buf 0 (some ((headerLength - 1 : ℕ) : ℚ))) = none := by
    rw [Buffer.toString_natCast]
    exact h
  simp only [decodePacket, hnone, Option.map_none]
  refine ⟨rfl, ?_⟩
  rw [Buffer.slice, Buffer.index_natCast, Nat.min_self, List.take_length]
  rfl

section Agreement

variable {type : PacketType} {string buf : Bytes}

lemma unwritten_length (hbuf : buf.length = headerLength + maxBodyLength)
    (hstring : string.length + 1 ≤ maxBodyLength) :
    (lengthText (string.length + 1)).length + (unwritten (string.length + 1) buf).length = 4 := by
  have hmax : maxBodyLength = 512 := rfl
  have hwritten : written (string.length + 1) ≤ 4 := by
    rw [written]
    split_ifs <;> omega
  rw [lengthText_length hstring, unwritten, List.length_drop, List.length_take]
  omega

lemma typeText (type : PacketType) : isDigit (UInt8.ofNat (48 + packetNumber type)) = true ∧
    value [UInt8.ofNat (48 + packetNumber type)] = type.code := by
  cases type <;> exact ⟨rfl, rfl⟩

lemma toNat_lt_of_isDigit {c : UInt8} (h : isDigit c = true) : c.toNat < 128 := by
  have hc := isDigit_iff.mp h
  omega

lemma toNat_le_of_isSpace {c : UInt8} (h : isSpace c = true) : c.toNat ≤ 32 := by
  simp only [isSpace, Bool.or_eq_true, beq_iff_eq, Bool.and_eq_true, decide_eq_true_eq,
    UInt8.le_iff_toNat_le] at h
  rcases h with rfl | h
  · exact Nat.le_refl 32
  · have hthirteen : (13 : UInt8).toNat = 13 := rfl
    omega

lemma store_encoded (hstring : string.length + 1 ≤ maxBodyLength)
    (hbuf : buf.length = headerLength + maxBodyLength) (p : Packet) (type : PacketType) :
    (p.store 0 (encodePacket (packetNumber type) string buf)).data.take Packet.headerLength =
        lengthText (string.length + 1) ++ unwritten (string.length + 1) buf ++
          [UInt8.ofNat (48 + packetNumber type)] ∧
      (p.store 0 (encodePacket (packetNumber type) string buf)).body.take (string.length + 1) =
        string ++ [0] := by
  have hnumber : packetNumber type < 10 := by cases type <;> decide
  have hdata := p.data_length
  have hsplit := unwritten_length hbuf hstring
  rw [encodePacket_eq hnumber hstring hbuf]
  generalize hheader : lengthText (string.length + 1) ++ unwritten (string.length + 1) buf ++
    [UInt8.ofNat (48 + packetNumber type)] = h
  have hlen : h.length = Packet.headerLength := by
    rw [← hheader, List.length_append, List.length_append, hsplit]
    rfl
  have htotal : (h ++ (string ++ [0])).length = Packet.headerLength + (string.length + 1) := by
    simp [hlen]
  have hfits : (h ++ (string ++ [0])).length ≤ Packet.headerLength + Packet.maxBodyLength := by
    rw [htotal]
    exact Nat.add_le_add_left hstring _
  have hstored := Packet.store_take (p := p) hfits
  rw [htotal] at hstored
  constructor
  · have hh := congrArg (List.take Packet.headerLength) hstored
    rwa [List.take_take, Nat.min_eq_left (Nat.le_add_right _ _), List.take_left' hlen] at hh
  · have hh := congrArg (List.drop Packet.headerLength) hstored
    rwa [List.drop_take, Nat.add_sub_cancel_left, List.drop_left' hlen] at hh

lemma agrees_of_white (hstring : string.length + 1 ≤ maxBodyLength)
    (hseven : ∀ c ∈ string, c.toNat < 128) (hbuf : buf.length = headerLength + maxBodyLength)
    (hwhite : ∀ c ∈ unwritten (string.length + 1) buf, isSpace c = true) :
    Agrees type string (encodePacket (packetNumber type) string buf) := by
  have hdigits := lengthText_isDigit (string.length + 1)
  have hne := lengthText_ne_nil (string.length + 1)
  have hvalue := value_lengthText (string.length + 1)
  have hsplit := unwritten_length hbuf hstring
  obtain ⟨hdigit, hcode⟩ := typeText type
  refine ⟨fun p => ?_, fun rest => ?_⟩
  · obtain ⟨hheader, hbody⟩ := store_encoded hstring hbuf p type
    have hfits : value (lengthText (string.length + 1)) ≤ Packet.maxBodyLength :=
      Nat.le_trans (Nat.le_of_eq hvalue) hstring
    have hdecode := Packet.decodeHeader_digits hdigits hne hsplit hwhite hdigit hfits hheader
    rw [← hvalue] at hbody
    exact ⟨_, hdecode, congrArg Nat.cast hcode, hvalue, hbody⟩
  · have hnumber : packetNumber type < 10 := by cases type <;> decide
    have hseven' : ∀ c ∈ lengthText (string.length + 1) ++ unwritten (string.length + 1) buf,
        c.toNat < 128 := by
      intro c hc
      rcases List.mem_append.mp hc with hc | hc
      · exact toNat_lt_of_isDigit (hdigits c hc)
      · have hle := toNat_le_of_isSpace (hwhite c hc)
        omega
    have htype : number [UInt8.ofNat (48 + packetNumber type)] =
        some (packetNumber type : ℚ) := by
      have hall : ∀ x ∈ [UInt8.ofNat (48 + packetNumber type)], isDigit x = true := by
        simpa using hdigit
      have hsame : type.code = packetNumber type := by cases type <;> rfl
      rw [number_of_digits hall (by simp), hcode, hsame]
    have hlength := number_digits hdigits hne hwhite
    rw [hvalue] at hlength
    have hstart : string.length + 1 - 1 = string.length := rfl
    rw [encodePacket_eq hnumber hstring hbuf, List.append_assoc, List.append_assoc,
      List.singleton_append, decodePacket_of_length (n := string.length + 1)
        (by rw [List.length_append, hsplit]) (Nat.succ_pos _)
        (by rw [Buffer.sevenBit_eq hseven', hlength]),
      Buffer.sevenBit_eq (by simpa using toNat_lt_of_isDigit hdigit), htype, hstart,
      List.append_assoc, List.take_left, Buffer.sevenBit_eq hseven, ← List.append_assoc,
      List.drop_left' (by simp)]

lemma header_of_encoded (hstring : string.length + 1 ≤ maxBodyLength)
    (hbuf : buf.length = headerLength + maxBodyLength) (p : Packet) (type : PacketType) :
    ((p.store 0 (encodePacket (packetNumber type) string buf)).data.take
      Packet.headerLength).takeWhile (· ≠ 0) = lengthText (string.length + 1) ++
        (unwritten (string.length + 1) buf ++
          [UInt8.ofNat (48 + packetNumber type)]).takeWhile (· ≠ 0) := by
  rw [(store_encoded hstring hbuf p type).1, List.append_assoc, List.takeWhile_append_of_pos]
  intro c hc
  have hnonzero : c ≠ 0 := by
    rintro rfl
    exact absurd (lengthText_isDigit _ _ hc) (by decide)
  simpa using hnonzero

lemma not_digit_of_agrees (hstring : string.length + 1 ≤ maxBodyLength)
    (hbuf : buf.length = headerLength + maxBodyLength)
    (h : Agrees type string (encodePacket (packetNumber type) string buf)) {c : UInt8} {t : Bytes}
    (hc : unwritten (string.length + 1) buf = c :: t) : isDigit c = false := by
  have hmax : Packet.maxBodyLength = 512 := rfl
  have hsplit := unwritten_length hbuf hstring
  rw [hc, List.length_cons] at hsplit
  rw [Bool.eq_false_iff]
  intro hdigit
  have hnonzero : c ≠ 0 := by
    rintro rfl
    exact absurd hdigit (by decide)
  let p := Packet.fresh (List.replicate 517 0) List.length_replicate
  obtain ⟨q, hq, -, hlen, -⟩ := h.decodeHeader p
  have hheader := header_of_encoded hstring hbuf p type
  rw [hc, List.cons_append, List.takeWhile_cons_of_pos (by simpa using hnonzero)] at hheader
  have hshort : (lengthText (string.length + 1)).length < 4 := by omega
  obtain ⟨n, rest, hscan, hle, hlt⟩ := scanInt_continues
    ((t ++ [UInt8.ofNat (48 + packetNumber type)]).takeWhile (· ≠ 0))
    (lengthText_isDigit (string.length + 1)) (lengthText_ne_nil _) hshort hdigit
  rw [← hheader] at hscan
  rw [value_lengthText] at hle
  by_cases hn : n ≤ Packet.maxBodyLength
  · rw [Packet.decodeHeader_of_scan hn hscan, Prod.mk.injEq] at hq
    obtain ⟨rfl, -⟩ := hq
    change n = string.length + 1 at hlen
    omega
  · have hfalse := Packet.decodeHeader_of_too_long (by omega) (by omega) hscan
    simp [hq] at hfalse

lemma type_read_of_agrees (hstring : string.length + 1 ≤ maxBodyLength)
    (hbuf : buf.length = headerLength + maxBodyLength)
    (h : Agrees type string (encodePacket (packetNumber type) string buf)) {c : UInt8} {t : Bytes}
    (hc : unwritten (string.length + 1) buf = c :: t) :
    ∃ x ∈ (((c :: t ++ [UInt8.ofNat (48 + packetNumber type)]).takeWhile (· ≠ 0)).dropWhile
      isSpace).head?, isDigit x = true := by
  have hdigit := not_digit_of_agrees hstring hbuf h hc
  have hsplit := unwritten_length hbuf hstring
  obtain ⟨other, hother⟩ : ∃ other : PacketType, (other.code : ℤ) ≠ type.code := by
    cases type
    · exact ⟨.predict, by decide⟩
    all_goals exact ⟨.train, by decide⟩
  let p := (Packet.fresh (List.replicate 517 0) List.length_replicate).setType other
  obtain ⟨q, hq, htype, -, -⟩ := h.decodeHeader p
  have hheader := header_of_encoded hstring hbuf p type
  rw [hc] at hheader hsplit
  have hstop : ∀ x ∈ ((c :: t ++ [UInt8.ofNat (48 + packetNumber type)]).takeWhile (· ≠ 0)).head?,
      isDigit x = false := by
    intro x hx
    rw [List.cons_append, List.takeWhile_cons] at hx
    split at hx
    · obtain rfl : c = x := by simpa using hx
      exact hdigit
    · simp at hx
  have hshort : (lengthText (string.length + 1)).length ≤ 4 := by omega
  have hscan := scanInt_digits _ (lengthText_isDigit (string.length + 1)) (lengthText_ne_nil _)
    hshort (Or.inr hstop)
  rw [← hheader, value_lengthText] at hscan
  rw [Packet.decodeHeader_of_scan hstring hscan, Prod.mk.injEq] at hq
  obtain ⟨rfl, -⟩ := hq
  by_contra hnone
  have hold : Packet.scanType p.type ((c :: t ++
      [UInt8.ofNat (48 + packetNumber type)]).takeWhile (· ≠ 0)) = p.type :=
    Packet.scanType_of_none (fun x hx => Bool.eq_false_iff.mpr fun hd => hnone ⟨x, hx, hd⟩)
  exact hother (hold.symm.trans htype)

lemma first_white_of_agrees (hstring : string.length + 1 ≤ maxBodyLength)
    (hbuf : buf.length = headerLength + maxBodyLength)
    (h : Agrees type string (encodePacket (packetNumber type) string buf)) {c : UInt8} {t : Bytes}
    (hc : unwritten (string.length + 1) buf = c :: t) : isSpace c = true := by
  obtain ⟨x, hx, hdigit⟩ := type_read_of_agrees hstring hbuf h hc
  by_contra hspace
  rw [List.cons_append, List.takeWhile_cons] at hx
  split at hx
  · rw [List.dropWhile_cons_of_neg hspace] at hx
    obtain rfl : c = x := by simpa using hx
    rw [not_digit_of_agrees hstring hbuf h hc] at hdigit
    exact Bool.false_ne_true hdigit
  · simp at hx

lemma second_not_digit_of_agrees (hstring : string.length + 1 ≤ maxBodyLength)
    (hbuf : buf.length = headerLength + maxBodyLength)
    (h : Agrees type string (encodePacket (packetNumber type) string buf)) {c d : UInt8}
    (hc : unwritten (string.length + 1) buf = [c, d]) : isDigit d = false := by
  have hnumber : packetNumber type < 10 := by cases type <;> decide
  have hspace := first_white_of_agrees hstring hbuf h hc
  have hsplit := unwritten_length hbuf hstring
  have hdigits := lengthText_isDigit (string.length + 1)
  rw [Bool.eq_false_iff]
  intro hdigit
  have hseven : ∀ x ∈ lengthText (string.length + 1) ++ [c, d], x.toNat < 128 := by
    intro x hx
    simp only [List.mem_append, List.mem_cons, List.not_mem_nil, or_false] at hx
    have hle := toNat_le_of_isSpace hspace
    rcases hx with hx | rfl | rfl
    · exact toNat_lt_of_isDigit (hdigits x hx)
    · omega
    · exact toNat_lt_of_isDigit hdigit
  have hfirst : ∀ x ∈ (lengthText (string.length + 1) ++ [c] ++ [d]).head?,
      isSpace x = false := by
    intro x hx
    obtain ⟨y, t, hy⟩ := List.exists_cons_of_ne_nil (lengthText_ne_nil (string.length + 1))
    rw [hy] at hx hdigits
    obtain rfl : y = x := by simpa using hx
    exact (isSpace_of_isDigit (hdigits y (by simp))).1
  obtain ⟨rest, htrim⟩ := trim_keeps [] hfirst (isSpace_of_isDigit hdigit).1
  have hnone : number (Buffer.sevenBit (lengthText (string.length + 1) ++ [c, d])) = none := by
    rw [Buffer.sevenBit_eq hseven]
    rw [List.append_assoc, List.append_assoc] at htrim
    exact number_eq_none htrim hdigits (toNat_le_of_isSpace hspace)
  have hdecode := h.decodePacket []
  rw [encodePacket_eq hnumber hstring hbuf, hc, List.append_nil, List.append_assoc] at hdecode
  rw [hc] at hsplit
  have htext : (lengthText (string.length + 1) ++ [c, d] ++
      ([UInt8.ofNat (48 + packetNumber type)] ++ (string ++ [0]))).take 4 =
      lengthText (string.length + 1) ++ [c, d] := by
    rw [List.take_left']
    rw [List.length_append, hsplit]
  rw [← htext] at hnone
  have hempty := (decodePacket_of_none hnone).1
  rw [hdecode] at hempty
  change string = [] at hempty
  -- the length of an empty string is written in full
  rw [hempty] at hc
  have hfull : (unwritten 1 buf).length = 0 := by
    rw [unwritten, List.length_drop, List.length_take]
    exact Nat.sub_eq_zero_of_le (Nat.min_le_left 4 buf.length)
  rw [List.length_nil, Nat.zero_add] at hc
  rw [hc] at hfull
  exact Nat.succ_ne_zero 1 hfull

lemma white_of_agrees (hstring : string.length + 1 ≤ maxBodyLength)
    (hbuf : buf.length = headerLength + maxBodyLength)
    (h : Agrees type string (encodePacket (packetNumber type) string buf)) :
    ∀ c ∈ unwritten (string.length + 1) buf, isSpace c = true := by
  have hsplit := unwritten_length hbuf hstring
  rw [lengthText_length hstring] at hsplit
  have htwo : 2 ≤ written (string.length + 1) := by
    rw [written]
    split_ifs <;> omega
  match hc : unwritten (string.length + 1) buf with
  | [] => simp
  | [c] => simpa using first_white_of_agrees hstring hbuf h hc
  | [c, d] =>
    have hfirst := first_white_of_agrees hstring hbuf h hc
    have hdigit := second_not_digit_of_agrees hstring hbuf h hc
    have hsecond : isSpace d = true := by
      by_contra hspace
      obtain ⟨x, hx, hread⟩ := type_read_of_agrees hstring hbuf h hc
      have hnonzero : c ≠ 0 := by
        rintro rfl
        exact absurd hfirst (by decide)
      rw [List.cons_append, List.takeWhile_cons_of_pos (by simpa using hnonzero),
        List.dropWhile_cons_of_pos hfirst, List.cons_append, List.takeWhile_cons] at hx
      split at hx
      · rw [List.dropWhile_cons_of_neg hspace] at hx
        obtain rfl : d = x := by simpa using hx
        rw [second_not_digit_of_agrees hstring hbuf h hc] at hread
        exact Bool.false_ne_true hread
      · simp at hx
    simp [hfirst, hsecond]
  | _ :: _ :: _ :: _ =>
    rw [hc, List.length_cons, List.length_cons, List.length_cons] at hsplit
    omega

theorem encoding_law (hstring : string.length ≤ 511)
    (hascii : ∀ c ∈ string, 0 < c.toNat ∧ c.toNat < 128)
    (hbuf : buf.length = headerLength + maxBodyLength) :
    Agrees type string (encodePacket (packetNumber type) string buf) ↔
      ∀ c ∈ unwritten (string.length + 1) buf, isSpace c = true := by
  have hfits : string.length + 1 ≤ maxBodyLength := Nat.succ_le_succ hstring
  constructor
  · exact white_of_agrees hfits hbuf
  · exact agrees_of_white hfits (fun c hc => (hascii c hc).2) hbuf

end Agreement

theorem encoding_law_short : Agrees .predict [104, 105]
    (encodePacket (packetNumber .predict) [104, 105] (List.replicate 517 0)) := by
  have hascii : ∀ c ∈ ([104, 105] : Bytes), 0 < c.toNat ∧ c.toNat < 128 := by simp
  exact (encoding_law (by decide) hascii List.length_replicate).mpr
    (by simp [unwritten, written])

theorem encoding_law_fails : ¬ ∀ (type : PacketType) (string buf : Bytes),
    string.length ≤ 511 → (∀ c ∈ string, 0 < c.toNat ∧ c.toNat < 128) →
      buf.length = headerLength + maxBodyLength →
        Agrees type string (encodePacket (packetNumber type) string buf) := by
  intro h
  have hascii : ∀ c ∈ List.replicate 19 (97 : UInt8), 0 < c.toNat ∧ c.toNat < 128 := by
    intro c hc
    rw [List.eq_of_mem_replicate hc]
    decide
  have hagrees := h .predict (List.replicate 19 97) (List.replicate 517 0) (by decide) hascii
    List.length_replicate
  have hwhite := white_of_agrees (by decide) List.length_replicate hagrees
  exact absurd (hwhite 0 (by decide)) (by decide)

end WordModel.NodeJs
