import WordModel.Packet.Frames

/-! The client's end of the connection: packets are written as they are given to it, and the
text of each one that comes is printed. -/

namespace WordModel.ServiceClient

open Checked Decimal Packet Endpoint

def start (p : Packet) : Endpoint := ⟨p, [], .empty, [], true, false, false, [], 0⟩

def onConnect (ec : Bool) (s : Endpoint) : Endpoint := if ec then s else s.doReadHeader

/-- The text in red, and the cursor moved back to where it was -/
def coloured (text : Bytes) : Bytes :=
  literal "\x1b[31m" ++ text ++ literal "\x1b[0m" ++ literal "\x1b[" ++ decimal text.length ++
    literal "D"

def outputPrediction (prediction : Bytes) (s : Endpoint) : Exec Container Endpoint := do
  let text ← cString prediction
  return s.print (coloured text)

def onBody (ec : Bool) (s : Endpoint) : Exec Container Endpoint :=
  if ec then .ok s.close
  else do
    let s ← outputPrediction s.readPacket.body s
    return s.doReadHeader

def onWritten (ec : Bool) (s : Endpoint) : Endpoint := if ec then s.close else s

def callbacks : Endpoint.Handlers := ⟨onConnect, Endpoint.onHeader Endpoint.close, onBody, onWritten⟩

def Own : Event → Prop
  | .write _ => False
  | .close => False
  | .arrive _ => False
  | _ => True

def Fails : Event → Prop
  | .opened ec => ec = true
  | .read ec _ => ec = true
  | .written _ ec => ec = true
  | _ => False

def shown (q : PacketType × Bytes) : Bytes := coloured (q.2.takeWhile (· ≠ 0))

structure Follows (calm : Prop) (replies : List (PacketType × Bytes)) (s : Endpoint)
    (pushed : List Packet) : Prop where
  flows : s.outbox.Flows wire pushed
  flowing : calm → ¬ s.outbox.Stalled
  reads : ∃ k, Reads calm replies s k ∧ s.printed = (replies.take k).map shown

lemma start_follows (calm : Prop) (replies : List (PacketType × Bytes)) (p : Packet) :
    Follows calm replies (start p) [] where
  flows := Outbox.empty_flows wire
  flowing _ h := h.2 rfl
  reads := ⟨0, ⟨fun hp => (hp rfl).elim, Nat.le_refl 0, List.nil_prefix, Nat.zero_le _,
    .unopened rfl rfl rfl rfl⟩, rfl⟩

lemma cString_of_prefix {text body : Bytes} (h : text <+: body) (hend : 0 ∈ text) :
    cString body = .ok (text.takeWhile (· ≠ 0)) := by
  obtain ⟨rest, rfl⟩ := h
  have hshort : (text.takeWhile (· ≠ 0)).length ≠ text.length := by
    intro hlen
    have hall := (List.takeWhile_prefix (p := (· ≠ 0)) (l := text)).eq_of_length hlen
    rw [List.takeWhile_eq_self_iff] at hall
    simpa using hall 0 hend
  rw [cString, if_pos (List.mem_append_left rest hend), List.takeWhile_append, if_neg hshort]

section

variable {calm : Prop} {replies : List (PacketType × Bytes)} {s : Endpoint} {pushed : List Packet}
  (h : Follows calm replies s pushed)

include h

lemma Follows.of_outbox {outbox : Outbox Packet UInt8} {pushed' : List Packet}
    (hflows : outbox.Flows wire pushed') (hflowing : calm → ¬ outbox.Stalled) :
    Follows calm replies { s with outbox := outbox } pushed' where
  flows := hflows
  flowing := hflowing
  reads := by
    obtain ⟨k, hk, hprinted⟩ := h.reads
    exact ⟨k, hk.of_same rfl rfl rfl rfl rfl, hprinted⟩

lemma Follows.close : Follows calm replies s.close pushed where
  flows := h.flows
  flowing := h.flowing
  reads := by
    obtain ⟨k, hk, hprinted⟩ := h.reads
    exact ⟨k, hk.of_same rfl rfl rfl rfl rfl, hprinted⟩

lemma Follows.write (p : Packet) : ∃ t, step callbacks s (.write p) = .ok t ∧
    Follows calm replies t (pushed ++ [p]) ∧ t.outbox.out = s.outbox.out ∧ t.arrived = s.arrived := by
  obtain ⟨outbox, hpush, hflows, hout, hstalled⟩ :=
    h.flows.push Container.writePackets (List.cons_ne_nil p [])
  refine ⟨{ s with outbox := outbox }, ?_, h.of_outbox hflows fun hc => mt hstalled.mp (h.flowing hc),
    hout, rfl⟩
  rw [step, deliver, hpush]
  rfl

lemma Follows.arrive {bytes : Bytes} (hb : s.arrived ++ bytes <+: replies.flatMap frame) :
    Follows calm replies { s with arrived := s.arrived ++ bytes } pushed where
  flows := h.flows
  flowing := h.flowing
  reads := by
    obtain ⟨k, hk, hprinted⟩ := h.reads
    exact ⟨k, hk.arrive hb, hprinted⟩

lemma Follows.opened {ec : Bool} (he : Event.CanOccur s (.opened ec)) :
    ∃ t, step callbacks s (.opened ec) = .ok t ∧ Follows calm replies t pushed ∧
      t.outbox.out = s.outbox.out ∧ t.arrived = s.arrived := by
  obtain ⟨k, hk, hprinted⟩ := h.reads
  cases ec with
  | true =>
    refine ⟨_, rfl, ⟨h.flows, h.flowing, k, ?_, hprinted⟩, rfl, rfl⟩
    exact hk.of_same rfl rfl rfl rfl (Bool.or_false _)
  | false =>
    obtain ⟨hp, rfl, hopen⟩ := hk.open_next (he.2 rfl).1
    refine ⟨_, rfl, ⟨h.flows, h.flowing, 0, hopen _ ?_ (Bool.or_true _) rfl rfl, hprinted⟩, rfl, rfl⟩
    simp [callbacks, onConnect, doReadHeader, hp]

variable (hsend : ∀ q ∈ replies, q.2.length ≤ maxBodyLength ∧ 0 ∈ q.2)

include hsend

lemma Follows.read {ec : Bool} {n : ℕ} (he : Event.CanOccur s (.read ec n)) (hcalm : calm → ec = false) :
    ∃ t, step callbacks s (.read ec n) = .ok t ∧ Follows calm replies t pushed ∧
      t.outbox.out = s.outbox.out ∧ t.arrived = s.arrived := by
  obtain ⟨k, hk, hprinted⟩ := h.reads
  obtain ⟨r, hrs, hn, hopen⟩ := hk.of_read he
  have hlengths (q : PacketType × Bytes) (hq : q ∈ replies) := (hsend q hq).1
  rw [step_read callbacks hrs]
  cases ec with
  | true =>
    have hfail : ¬ calm := fun hc => Bool.false_ne_true (hcalm hc).symm
    have hreads := hk.fail (t := Endpoint.close { s with
      readPacket := s.received r n
      posted := []
      taken := s.taken + n }) rfl hopen hn rfl hfail
    cases r with
    | header => exact ⟨_, rfl, ⟨h.flows, h.flowing, k, hreads, hprinted⟩, rfl, rfl⟩
    | body => exact ⟨_, rfl, ⟨h.flows, h.flowing, k, hreads, hprinted⟩, rfl, rfl⟩
  | false =>
    cases r with
    | header =>
      obtain ⟨haccepted, hnext⟩ := hk.header_next hlengths hrs he
      generalize s.received .header n = p at haccepted hnext
      let t : Endpoint := { s with readPacket := p, posted := [], taken := s.taken + n }
      have hstep : callbacks.onRead false t .header =
          .ok (doReadBody { t with readPacket := p.decodeHeader.1 }) :=
        congrArg Except.ok (onHeader_accepted Endpoint.close (s := t) haccepted)
      exact ⟨_, hstep, ⟨h.flows, h.flowing, k, hnext _ rfl rfl rfl rfl rfl, hprinted⟩, rfl, rfl⟩
    | body =>
      obtain ⟨q, hq, -, hprefix, hnext⟩ := hk.body_next hlengths hrs he
      have htext := cString_of_prefix hprefix (hsend q (List.mem_of_getElem? hq)).2
      generalize s.received .body n = p at htext
      refine ⟨doReadHeader { s with
        readPacket := p
        posted := []
        taken := s.taken + n
        printed := s.printed ++ [shown q] }, ?_, ⟨h.flows, h.flowing, k + 1, ?_, ?_⟩, rfl, rfl⟩
      · simp only [Handlers.onRead, callbacks, onBody, Bool.false_eq_true, if_false,
          outputPrediction, htext, ok_bind]
        rfl
      · exact hnext _ rfl rfl rfl rfl
      · change s.printed ++ [shown q] = _
        rw [hprinted, List.take_add_one, hq, List.map_append]
        rfl

lemma Follows.step {e : Event} (he : e.CanOccur s) (hown : Own e) (hcalm : calm → ¬ Fails e) :
    ∃ t, Endpoint.step callbacks s e = .ok t ∧ Follows calm replies t pushed ∧
      s.outbox.out <+: t.outbox.out ∧ t.arrived = s.arrived := by
  have quiet (hh : ∃ t, Endpoint.step callbacks s e = .ok t ∧ Follows calm replies t pushed ∧
      t.outbox.out = s.outbox.out ∧ t.arrived = s.arrived) :
      ∃ t, Endpoint.step callbacks s e = .ok t ∧ Follows calm replies t pushed ∧
      s.outbox.out <+: t.outbox.out ∧ t.arrived = s.arrived := by
    obtain ⟨t, ht, hf, hout, harrived⟩ := hh
    exact ⟨t, ht, hf, hout ▸ List.prefix_rfl, harrived⟩
  cases e with
  | write p => exact hown.elim
  | close => exact hown.elim
  | arrive bytes => exact hown.elim
  | opened ec => exact quiet (h.opened he)
  | read ec n => exact quiet (h.read hsend he fun hc => by simpa [Fails] using hcalm hc)
  | transmit i n =>
    obtain ⟨outbox, ht, hflows, hout, hstalled⟩ :=
      h.flows.transmit Container.writePackets .writes he.1 n
    refine ⟨{ s with outbox := outbox }, ?_, h.of_outbox hflows fun _ => hstalled, hout, rfl⟩
    simp only [Endpoint.step, ht]
    rfl
  | written i ec =>
    obtain ⟨outbox, ht, hflows, hout, hstalled⟩ :=
      h.flows.finish Container.writePackets .writes he.1 he.2
    refine quiet ⟨onWritten ec { s with outbox := outbox }, ?_, ?_, ?_, ?_⟩
    · simp only [Endpoint.step, ht]
      rfl
    · have hf := h.of_outbox hflows fun hc => by
        rw [hstalled]
        exact fun hec => hcalm hc hec
      cases ec with
      | true => exact hf.close
      | false => exact hf
    · cases ec with
      | true => exact hout
      | false => exact hout
    · cases ec with
      | true => rfl
      | false => rfl

end

lemma Follows.idle {calm : Prop} {replies : List (PacketType × Bytes)} {s : Endpoint}
    {pushed : List Packet} (h : Follows calm replies s pushed)
    (hsend : ∀ q ∈ replies, q.2.length ≤ maxBodyLength ∧ 0 ∈ q.2) (hc : calm) (hi : Idle s) :
    s.outbox.out = pushed.flatMap wire ∧
      (s.arrived = replies.flatMap frame → s.printed = replies.map shown) := by
  refine ⟨h.flows.out_eq_of_flowing (h.flowing hc) hi.2.1, fun hall => ?_⟩
  obtain ⟨k, hk, hprinted⟩ := h.reads
  obtain ⟨rfl, -, -⟩ := hk.all (fun q hq => (hsend q hq).1) hc hi.1 hall hi.2.2
  rw [hprinted, List.take_length]

end WordModel.ServiceClient
