import WordModel.Packet.Basic

/-! The server's reading side: reads of a header and of a body in turn, each of the number
of bytes it asks for. -/

namespace WordModel

open Checked Decimal Packet

inductive PendingRead where
  | header
  | body
  deriving DecidableEq

structure ModelServer where
  readPacket : Packet
  reading : PendingRead

namespace ModelServer

/-- What `process_packet` finds in `read_packet_`. -/
abbrev Processed := ℤ × Bytes

def wanted (s : ModelServer) : ℕ :=
  match s.reading with
  | .header => headerLength
  | .body => s.readPacket.bodyLength

def onHeader (ec : Bool) (p : Packet) : ModelServer :=
  if ec then ⟨p, .header⟩
  else
    let (p, accepted) := p.decodeHeader
    if accepted then ⟨p, .body⟩ else ⟨p, .header⟩

def onBody (ec : Bool) (p : Packet) : ModelServer × List Processed :=
  (⟨p, .header⟩, if ec then [] else [(p.type, p.body.take p.bodyLength)])

def complete (s : ModelServer) (bytes : Bytes) : ModelServer × List Processed :=
  match s.reading with
  | .header => (onHeader false (s.readPacket.store 0 bytes), [])
  | .body => onBody false (s.readPacket.store headerLength bytes)

lemma complete_reading {s : ModelServer} (h : s.reading = .body) (bytes : Bytes) :
    (s.complete bytes).1.reading = .header := by
  rw [complete, h]
  rfl

/-- Reads complete as long as there are bytes for them. -/
def serve (s : ModelServer) (stream : Bytes) : ModelServer × Bytes × List Processed :=
  if s.wanted ≤ stream.length then
    let r := s.complete (stream.take s.wanted)
    let t := serve r.1 (stream.drop s.wanted)
    (t.1, t.2.1, r.2 ++ t.2.2)
  else (s, stream, [])
termination_by (stream.length, if s.reading = .body then 1 else 0)
decreasing_by
  rw [Prod.lex_def]
  cases hr : s.reading with
  | header =>
    left
    have hpos : 0 < s.wanted := by
      rw [wanted, hr]
      exact Nat.succ_pos 4
    simp only [List.length_drop]
    omega
  | body =>
    -- a body of no bytes moves on to the next header without taking any
    have hheader := complete_reading hr (stream.take s.wanted)
    by_cases hpos : 0 < s.wanted
    · left
      simp only [List.length_drop]
      omega
    · right
      refine ⟨?_, ?_⟩
      · simp only [List.length_drop]
        omega
      · simp [hheader]

lemma serve_append {s : ModelServer} {bytes : Bytes} (h : bytes.length = s.wanted)
    (rest : Bytes) : serve s (bytes ++ rest) =
      ((serve (s.complete bytes).1 rest).1, (serve (s.complete bytes).1 rest).2.1,
        (s.complete bytes).2 ++ (serve (s.complete bytes).1 rest).2.2) := by
  have hle : s.wanted ≤ (bytes ++ rest).length := by
    rw [List.length_append]
    omega
  rw [serve, if_pos hle, ← h, List.take_left, List.drop_left]

lemma serve_packet (p : Packet) (type : PacketType) {body : Bytes}
    (hbody : body.length ≤ maxBodyLength) (rest : Bytes) :
    ∃ q : Packet, serve ⟨p, .header⟩ (header type body.length ++ body ++ rest) =
      ((serve ⟨q, .header⟩ rest).1, (serve ⟨q, .header⟩ rest).2.1,
        ((type.code : ℤ), body) :: (serve ⟨q, .header⟩ rest).2.2) := by
  have hheader := header_length type hbody
  have hfits : (header type body.length).length ≤ headerLength + maxBodyLength := by
    rw [hheader]
    exact Nat.le_add_right _ _
  have htake : (p.store 0 (header type body.length)).data.take headerLength =
      header type body.length := by
    rw [← hheader, store_take hfits]
  have hdecode := decodeHeader_header hbody htake
  obtain ⟨q, hq, hlen, htype⟩ : ∃ q : Packet,
      (p.store 0 (header type body.length)).decodeHeader = (q, true) ∧
        q.bodyLength = body.length ∧ q.type = type.code := ⟨_, hdecode, rfl, rfl⟩
  have hfirst : complete ⟨p, .header⟩ (header type body.length) = (⟨q, .body⟩, []) := by
    simp [complete, onHeader, hq]
  have hstored : ((q.store headerLength body).body).take body.length = body := store_body hbody
  have hsecond : complete ⟨q, .body⟩ body =
      (⟨q.store headerLength body, .header⟩, [((type.code : ℤ), body)]) := by
    have hprocessed : ((q.store headerLength body).body).take
        (q.store headerLength body).bodyLength = body := by
      rw [show (q.store headerLength body).bodyLength = body.length from hlen]
      exact hstored
    simp only [complete, onBody, Bool.false_eq_true, if_false]
    rw [hprocessed, ← htype]
    rfl
  refine ⟨q.store headerLength body, ?_⟩
  rw [List.append_assoc, serve_append hheader, hfirst, serve_append (by simp [wanted, hlen]),
    hsecond]
  rfl

theorem stream_law (p : Packet) (packets : List (Packet × PacketType × Bytes))
    (h : ∀ q ∈ packets, q.2.2.length ≤ maxBodyLength) :
    ∃ q : Packet, serve ⟨p, .header⟩ (packets.flatMap (fun q => (compose q.1 q.2.1 q.2.2).wire)) =
      (⟨q, .header⟩, [], packets.map (fun q => ((q.2.1.code : ℤ), q.2.2))) := by
  induction packets generalizing p with
  | nil =>
    refine ⟨p, ?_⟩
    have hnone : ¬ wanted ⟨p, .header⟩ ≤ ([] : Bytes).length := Nat.not_succ_le_zero 4
    rw [List.flatMap_nil, serve, if_neg hnone]
    rfl
  | cons x packets ih =>
    obtain ⟨q, hq⟩ := serve_packet p x.2.1 (h x (by simp))
      (packets.flatMap (fun q => (compose q.1 q.2.1 q.2.2).wire))
    obtain ⟨r, hr⟩ := ih q (fun y hy => h y (List.mem_cons_of_mem _ hy))
    refine ⟨r, ?_⟩
    rw [List.flatMap_cons, compose_wire _ _ (h x (by simp)), hq, hr]
    rfl

theorem stream_law_two :
    let blank := fresh (List.replicate 517 0) (by rw [List.length_replicate]; rfl)
    let packets := [(blank, PacketType.predict, [48, 48, 48, 50, 49]), (blank, .summary, [])]
    ∃ q : Packet, serve ⟨blank, .header⟩
      (packets.flatMap (fun q => (compose q.1 q.2.1 q.2.2).wire)) =
        (⟨q, .header⟩, [], [(1, [48, 48, 48, 50, 49]), (3, [])]) :=
  stream_law _ _ (by decide)

end ModelServer

end WordModel
