import WordModel.Library.Outbox
import WordModel.Library.Runs
import WordModel.Packet.Sessions

/-! One end of a connection, as the handlers of its reads and writes drive it. They are called
in any order, whenever something has come from the peer or has gone out. -/

namespace WordModel

open Checked Decimal Packet

structure Endpoint where
  readPacket : Packet
  posted : List PendingRead
  outbox : Outbox Packet UInt8
  printed : List Bytes
  opening : Bool
  connected : Bool
  closed : Bool
  arrived : Bytes
  taken : ℕ

namespace Endpoint

inductive Container where
  | writePackets
  | writes
  | posted
  | body
  | packetStrings
  deriving DecidableEq

def doReadHeader (s : Endpoint) : Endpoint := { s with posted := s.posted ++ [.header] }

def doReadBody (s : Endpoint) : Endpoint := { s with posted := s.posted ++ [.body] }

def close (s : Endpoint) : Endpoint := { s with closed := true }

def print (text : Bytes) (s : Endpoint) : Endpoint := { s with printed := s.printed ++ [text] }

def deliver (p : Packet) (s : Endpoint) : Exec Container Endpoint := do
  let outbox ← s.outbox.push .writePackets [p]
  return { s with outbox := outbox }

def onHeader (refuse : Endpoint → Endpoint) (ec : Bool) (s : Endpoint) : Endpoint :=
  if ec then refuse s
  else
    let (p, accepted) := s.readPacket.decodeHeader
    if accepted then doReadBody { s with readPacket := p } else refuse { s with readPacket := p }

/-- What `std::cout` takes of a C string; one that is not ended is read on past the array. -/
def cString (bytes : Bytes) : Exec Container Bytes :=
  if 0 ∈ bytes then .ok (bytes.takeWhile (· ≠ 0))
  else .error (.outOfRange .body bytes.length bytes.length)

def literal (s : String) : Bytes := s.toList.map ascii

structure Handlers where
  onOpen : Bool → Endpoint → Endpoint
  onHeader : Bool → Endpoint → Endpoint
  onBody : Bool → Endpoint → Exec Container Endpoint
  onWritten : Bool → Endpoint → Endpoint

def Handlers.onRead (h : Handlers) (ec : Bool) (s : Endpoint) : PendingRead → Exec Container Endpoint
  | .header => .ok (h.onHeader ec s)
  | .body => h.onBody ec s

inductive Event where
  | opened (ec : Bool)
  | write (p : Packet)
  | close
  | arrive (bytes : Bytes)
  /-- The oldest read has got `n` bytes, which are all it asked for if it succeeds. -/
  | read (ec : Bool) (n : ℕ)
  | transmit (i n : ℕ)
  | written (i : ℕ) (ec : Bool)

def wanted (s : Endpoint) (r : PendingRead) : ℕ := Session.wanted s.readPacket r

def received (s : Endpoint) (r : PendingRead) (n : ℕ) : Packet :=
  s.readPacket.store (Session.offset r) ((s.arrived.drop s.taken).take n)

def completeRead (h : Handlers) (s : Endpoint) (ec : Bool) (n : ℕ) : Exec Container Endpoint := do
  let (r, posted) ← popFront .posted s.posted
  h.onRead ec { s with readPacket := s.received r n, posted := posted, taken := s.taken + n } r

def step (h : Handlers) (s : Endpoint) : Event → Exec Container Endpoint
  | .opened ec => .ok (h.onOpen ec { s with opening := false, connected := s.connected || !ec })
  | .write p => s.deliver p
  | .close => .ok s.close
  | .arrive bytes => .ok { s with arrived := s.arrived ++ bytes }
  | .read ec n => completeRead h s ec n
  | .transmit i n => do
    let outbox ← s.outbox.transmit wire .writePackets .writes i n
    return { s with outbox := outbox }
  | .written i ec => do
    let outbox ← s.outbox.finish .writePackets .writes i ec
    return h.onWritten ec { s with outbox := outbox }

-- A socket that is open is not opened again, and one that is not open sends nothing. A read
-- that had its bytes before the socket was closed may still succeed.
def Event.CanOccur (s : Endpoint) : Event → Prop
  | .opened ec => s.opening = true ∧ (ec = false → s.connected = false ∧ s.closed = false)
  | .write _ => True
  | .close => True
  | .arrive _ => True
  | .read ec n => ∃ r, s.posted.head? = some r ∧ s.taken + n ≤ s.arrived.length ∧
      if ec then n < s.wanted r else n = s.wanted r
  | .transmit i _ => i < s.outbox.writes.length ∧ s.connected = true ∧ s.closed = false
  | .written i ec => i < s.outbox.writes.length ∧ (ec = false → s.outbox.Sent wire i)

def Idle (s : Endpoint) : Prop :=
  s.connected = true ∧ s.outbox.writes = [] ∧ ∀ n, ¬ Event.CanOccur s (.read false n)

lemma step_read (h : Handlers) {s : Endpoint} {r : PendingRead} {posted : List PendingRead}
    (hp : s.posted = r :: posted) (ec : Bool) (n : ℕ) : step h s (.read ec n) = h.onRead ec
      { s with readPacket := s.received r n, posted := posted, taken := s.taken + n } r := by
  rw [step, completeRead, hp, popFront, ok_bind]

lemma onHeader_accepted (refuse : Endpoint → Endpoint) {s : Endpoint}
    (h : s.readPacket.decodeHeader.2 = true) : onHeader refuse false s =
      doReadBody { s with readPacket := s.readPacket.decodeHeader.1 } := by
  simp [onHeader, h]

lemma onHeader_refused (refuse : Endpoint → Endpoint) {s : Endpoint}
    (h : s.readPacket.decodeHeader.2 = false) : onHeader refuse false s =
      refuse { s with readPacket := s.readPacket.decodeHeader.1 } := by
  simp [onHeader, h]

def consumed (s : Endpoint) : Bytes := s.arrived.take s.taken

lemma consumed_prefix (s : Endpoint) : s.consumed <+: s.arrived := List.take_prefix _ _

lemma consumed_length {s : Endpoint} (h : s.taken ≤ s.arrived.length) :
    s.consumed.length = s.taken := by
  rw [consumed, List.length_take, Nat.min_eq_left h]

lemma consumed_add (s : Endpoint) (n : ℕ) :
    s.arrived.take (s.taken + n) = s.consumed ++ (s.arrived.drop s.taken).take n := List.take_add

lemma consumed_arrive {s : Endpoint} (h : s.taken ≤ s.arrived.length) (bytes : Bytes) :
    (s.arrived ++ bytes).take s.taken = s.consumed := List.take_append_of_le_length h

end Endpoint

end WordModel
