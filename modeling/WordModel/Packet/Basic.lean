import WordModel.Library.Checked
import WordModel.Library.Decimal

/-! Packets: a header, that is the length of the body in four digits and the type in one,
and the body. -/

namespace WordModel

open Checked Decimal

inductive PacketType where
  | train
  | predict
  | prediction
  | summary
  deriving DecidableEq

def PacketType.code : PacketType → ℕ
  | .train => 0
  | .predict => 1
  | .prediction => 2
  | .summary => 3

namespace Packet

def headerLength : ℕ := 4 + 1
def maxBodyLength : ℕ := 512

end Packet

-- The type is what `sscanf` stores in it, an enumerator or not.
structure Packet where
  data : Bytes
  data_length : data.length = Packet.headerLength + Packet.maxBodyLength
  bodyLength : ℕ
  bodyLength_le : bodyLength ≤ Packet.maxBodyLength
  type : ℤ

namespace Packet

/-- The constructor leaves `data_` as it finds it. -/
def fresh (data : Bytes) (h : data.length = headerLength + maxBodyLength) : Packet :=
  ⟨data, h, 0, Nat.zero_le _, PacketType.train.code⟩

def setType (p : Packet) (type : PacketType) : Packet := { p with type := type.code }

def length (p : Packet) : ℕ := headerLength + p.bodyLength

def body (p : Packet) : Bytes := p.data.drop headerLength

def setBodyLength (p : Packet) (newLength : ℕ) : Packet :=
  { p with
    bodyLength := if maxBodyLength < newLength then maxBodyLength else newLength
    bodyLength_le := by
      split
      · exact Nat.le_refl _
      · omega }

/-- `memcpy` to `data_ + i` -/
def store (p : Packet) (i : ℕ) (bytes : Bytes) : Packet :=
  { p with
    data := fill p.data i bytes
    data_length := by rw [fill_length, p.data_length] }

/-- What `%d` stores in a `size_t`: its low half. -/
def storeInt (old : ℕ) (n : ℤ) : ℕ := old / 2 ^ 32 * 2 ^ 32 + (n % 2 ^ 32).toNat

/-- What `%d` prints of a `size_t`. -/
def lowInt (n : ℕ) : ℤ := (BitVec.ofNat 32 n).toInt

def scanType (old : ℤ) (rest : Bytes) : ℤ :=
  match scanInt 1 rest with
  | none => old
  | some (type, _) => type

def decodeHeader (p : Packet) : Packet × Bool :=
  -- `strncat` ends at a NUL
  let header := (p.data.take headerLength).takeWhile (· ≠ 0)
  let (bodyLength, type) := match scanInt 4 header with
    | none => (p.bodyLength, p.type)
    | some (n, rest) => (storeInt p.bodyLength n, scanType p.type rest)
  if h : maxBodyLength < bodyLength then
    ({ p with bodyLength := 0, bodyLength_le := Nat.zero_le _, type := type }, false)
  else ({ p with bodyLength := bodyLength, bodyLength_le := not_lt.mp h, type := type }, true)

def encodeHeader (p : Packet) : Packet :=
  p.store 0 ((printInt 4 (lowInt p.bodyLength) ++ printInt 1 p.type).take headerLength)

def wire (p : Packet) : Bytes := p.data.take p.length

def compose (p : Packet) (type : PacketType) (body : Bytes) : Packet :=
  (((p.store headerLength body).setBodyLength body.length).setType type).encodeHeader

def header (type : PacketType) (bodyLength : ℕ) : Bytes :=
  printInt 4 bodyLength ++ printInt 1 type.code

lemma header_length (type : PacketType) {n : ℕ} (hn : n ≤ maxBodyLength) :
    (header type n).length = headerLength := by
  have hlt : n < 10 ^ 4 := by
    have : maxBodyLength = 512 := rfl
    omega
  have htype : type.code < 10 ^ 1 := by cases type <;> decide
  rw [header, List.length_append, printInt_length (by decide) hlt,
    printInt_length (by decide) htype]
  rfl

lemma lowInt_of_le {n : ℕ} (hn : n ≤ maxBodyLength) : lowInt n = n := by
  have : maxBodyLength = 512 := rfl
  rw [lowInt, BitVec.toInt_eq_toNat_cond, BitVec.toNat_ofNat]
  split <;> omega

lemma encodeHeader_eq (p : Packet) (type : PacketType) (h : p.type = type.code) :
    p.encodeHeader = p.store 0 (header type p.bodyLength) := by
  rw [encodeHeader, lowInt_of_le p.bodyLength_le, h, ← header, List.take_of_length_le]
  rw [header_length type p.bodyLength_le]

lemma encodeHeader_wire (p : Packet) (type : PacketType) :
    (p.setType type).encodeHeader.wire =
      header type p.bodyLength ++ p.body.take p.bodyLength := by
  have hheader := header_length type p.bodyLength_le
  have hdata := p.data_length
  have hlen := p.bodyLength_le
  rw [encodeHeader_eq _ type rfl, wire, length]
  change (fill p.data 0 (header type p.bodyLength)).take (headerLength + p.bodyLength) = _
  rw [fill_eq (by omega), List.take_zero, List.nil_append, Nat.zero_add, hheader, ← hheader,
    List.take_length_add_append, hheader]
  rfl

lemma store_take {p : Packet} {bytes : Bytes}
    (h : bytes.length ≤ headerLength + maxBodyLength) :
    (p.store 0 bytes).data.take bytes.length = bytes := by
  have hdata := p.data_length
  change (fill p.data 0 bytes).take bytes.length = bytes
  rw [← Nat.zero_add bytes.length, fill_take (by omega), List.take_zero, List.nil_append]

lemma store_body {p : Packet} {body : Bytes} (hbody : body.length ≤ maxBodyLength) :
    ((p.store headerLength body).body).take body.length = body := by
  have hdata := p.data_length
  change ((fill p.data headerLength body).drop headerLength).take body.length = body
  rw [List.take_drop, fill_take (by omega), List.drop_left']
  rw [List.length_take]
  omega

lemma body_take (p : Packet) : p.body.take p.bodyLength = p.wire.drop headerLength := by
  rw [body, wire, length, List.take_drop]

lemma compose_wire (p : Packet) (type : PacketType) {body : Bytes}
    (hbody : body.length ≤ maxBodyLength) :
    (compose p type body).wire = header type body.length ++ body := by
  have hlen : ((p.store headerLength body).setBodyLength body.length).bodyLength = body.length :=
    if_neg (by omega)
  have hstored : ((p.store headerLength body).setBodyLength body.length).body.take body.length =
      body := store_body hbody
  rw [compose, encodeHeader_wire, hlen, hstored]

lemma storeInt_of_lt {old n : ℕ} (hold : old ≤ maxBodyLength) (hn : n < 2 ^ 32) :
    storeInt old n = n := by
  have : maxBodyLength = 512 := rfl
  rw [storeInt]
  omega

lemma decodeHeader_of_scan {p : Packet} {n : ℕ} {rest : Bytes} (hn : n ≤ maxBodyLength)
    (h : scanInt 4 ((p.data.take headerLength).takeWhile (· ≠ 0)) = some ((n : ℤ), rest)) :
    p.decodeHeader =
      ({ p with bodyLength := n, bodyLength_le := hn, type := scanType p.type rest }, true) := by
  have : maxBodyLength = 512 := rfl
  have hstore := storeInt_of_lt p.bodyLength_le (show n < 2 ^ 32 by omega)
  have hle : ¬ maxBodyLength < n := by omega
  simp only [decodeHeader, h, hstore, hle, dite_false]

lemma decodeHeader_of_too_long {p : Packet} {n : ℕ} {rest : Bytes} (hn : maxBodyLength < n)
    (hlt : n < 2 ^ 32)
    (h : scanInt 4 ((p.data.take headerLength).takeWhile (· ≠ 0)) = some ((n : ℤ), rest)) :
    p.decodeHeader.2 = false := by
  have hstore := storeInt_of_lt p.bodyLength_le hlt
  simp only [decodeHeader, h, hstore, hn, dite_true]

lemma scanType_of_none {old : ℤ} {rest : Bytes}
    (h : ∀ c ∈ (rest.dropWhile isSpace).head?, isDigit c = false) : scanType old rest = old := by
  rw [scanType, scanInt_one_eq_none h]

lemma scanType_digit {old : ℤ} {white : Bytes} {c : UInt8}
    (hwhite : ∀ x ∈ white, isSpace x = true) (hc : isDigit c = true) :
    scanType old (white ++ [c]) = value [c] := by
  have hdigit : ∀ x ∈ [c], isDigit x = true := by simpa using hc
  have hscan := scanInt_digits [] hdigit (by simp) (Nat.le_refl 1) (Or.inl rfl)
  have hskip : (white ++ [c]).dropWhile isSpace = [c].dropWhile isSpace :=
    List.dropWhile_append_of_pos hwhite
  have heq : scanInt 1 (white ++ [c]) = scanInt 1 [c] := by
    simp only [scanInt, hskip]
  rw [List.append_nil] at hscan
  rw [scanType, heq, hscan]

lemma decodeHeader_digits {p : Packet} {ds white : Bytes} {c : UInt8}
    (hds : ∀ x ∈ ds, isDigit x = true) (hne : ds ≠ []) (hlen : ds.length + white.length = 4)
    (hwhite : ∀ x ∈ white, isSpace x = true) (hc : isDigit c = true)
    (hn : value ds ≤ maxBodyLength) (h : p.data.take headerLength = ds ++ white ++ [c]) :
    p.decodeHeader =
      ({ p with bodyLength := value ds, bodyLength_le := hn, type := value [c] }, true) := by
  have hnonzero (x : UInt8) (hx : isDigit x = true ∨ isSpace x = true) : x ≠ 0 := by
    rintro rfl
    exact absurd hx (by decide)
  have hheader : (p.data.take headerLength).takeWhile (· ≠ 0) = ds ++ (white ++ [c]) := by
    rw [h, List.append_assoc, List.takeWhile_eq_self_iff]
    intro x hx
    have hx0 : x ≠ 0 := by
      apply hnonzero
      simp only [List.mem_append, List.mem_singleton] at hx
      rcases hx with hx | hx | rfl
      · exact Or.inl (hds x hx)
      · exact Or.inr (hwhite x hx)
      · exact Or.inl hc
    simpa using hx0
  have hstop : ds.length = 4 ∨ ∀ x ∈ (white ++ [c]).head?, isDigit x = false := by
    cases white with
    | nil => exact Or.inl hlen
    | cons w white =>
      right
      intro x hx
      obtain rfl : w = x := by simpa using hx
      exact isDigit_of_isSpace (hwhite w (by simp))
  have hscan := scanInt_digits (white ++ [c]) hds hne (show ds.length ≤ 4 by omega) hstop
  rw [← hheader] at hscan
  rw [decodeHeader_of_scan hn hscan, scanType_digit hwhite hc]

lemma decodeHeader_header {p : Packet} {type : PacketType} {n : ℕ} (hn : n ≤ maxBodyLength)
    (h : p.data.take headerLength = header type n) :
    p.decodeHeader = ({ p with bodyLength := n, bodyLength_le := hn, type := type.code }, true) := by
  have hlt : n < 10 ^ 4 := by
    have : maxBodyLength = 512 := rfl
    omega
  obtain ⟨c, hcode, hc, hvalue⟩ : ∃ c, printInt 1 type.code = [c] ∧ isDigit c = true ∧
      value [c] = type.code := by
    cases type <;> exact ⟨_, rfl, rfl, rfl⟩
  have hsplit : p.data.take headerLength = printInt 4 n ++ [] ++ [c] := by
    rw [h, header, hcode, List.append_nil]
  have hlen : (printInt 4 (n : ℤ)).length + ([] : Bytes).length = 4 :=
    printInt_length (by decide) hlt
  have hdecode := decodeHeader_digits (printInt_isDigit 4 n) (printInt_ne_nil 4 n) hlen (by simp) hc
    (by rwa [value_printInt]) hsplit
  simpa only [value_printInt, hvalue] using hdecode

end Packet

end WordModel
