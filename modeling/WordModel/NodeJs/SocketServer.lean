import WordModel.NodeJs.Rounds
import WordModel.Server.Peer

/-! The socket server: it passes on what a browser asks of the model server, and emits to the
browser what comes back. -/

namespace WordModel

open Checked Decimal Javascript ModelServer

namespace NodeJs

lemma onData_of_handled {data : Bytes} (hne : data ≠ []) {cs : List Callback}
    (h : Handled data cs) : onData data.length data = some cs := by
  induction hlength : data.length using Nat.strong_induction_on generalizing data cs with
  | h k ih =>
    have hlt : (decodePacket data).remaining.length < data.length := by
      have hle : (decodePacket data).remaining.length ≤ data.length := by
        rw [remaining_eq, List.length_drop]
        exact Nat.sub_le _ _
      refine lt_of_le_of_ne hle fun hsame => not_handled_of_remaining hne ?_ cs h
      rw [remaining_eq] at hsame ⊢
      rw [List.length_drop] at hsame
      have hpos := List.length_pos_iff.mpr hne
      rw [show Buffer.index data _ = 0 by omega, List.drop_zero]
    obtain ⟨j, rfl⟩ : ∃ j, k = j + 1 := ⟨k - 1, by omega⟩
    rw [onData]
    by_cases hr : (decodePacket data).remaining = []
    · rw [hr, (handled_last hr).mp h]
      rfl
    · obtain ⟨ds, hds, rfl⟩ := (handled_more hr).mp h
      have hrest := ih _ (hlength ▸ hlt) hr hds rfl
      rw [if_pos (List.length_pos_iff.mpr hr), onData_mono (by omega) hrest]
      rfl

lemma packetNumber_injective {t t' : PacketType}
    (h : (some (packetNumber t : ℚ) : Number) = some (packetNumber t' : ℚ)) : t = t' := by
  have hnumber : packetNumber t = packetNumber t' := by exact_mod_cast Option.some.inj h
  cases t <;> cases t' <;> first | rfl | cases hnumber

lemma bytes_append_inj {r r' : Reply} {xs ys : Bytes} (h : r.bytes ++ xs = r'.bytes ++ ys) :
    r = r' ∧ xs = ys := by
  have hdecode := congrArg decodePacket h
  rw [r.decodePacket_bytes, r'.decodePacket_bytes] at hdecode
  obtain ⟨htype, -, rfl⟩ := Decoded.mk.inj hdecode
  have htype := packetNumber_injective htype
  have hbytes := List.append_cancel_right h
  have hbody : r.body = r'.body := by
    have hdrop := congrArg (List.drop (5 + 0)) hbytes
    rwa [r.bytes_drop, r'.bytes_drop] at hdrop
  cases r
  cases r'
  cases htype
  cases hbody
  exact ⟨rfl, rfl⟩

lemma prefix_of_bytes {rs ss : List Reply}
    (h : rs.flatMap Reply.bytes <+: ss.flatMap Reply.bytes) : rs <+: ss := by
  induction rs generalizing ss with
  | nil => exact List.nil_prefix
  | cons r rs ih =>
    cases ss with
    | nil =>
      have hpos := r.length_pos
      have hle := h.length_le
      rw [List.flatMap_cons, List.flatMap_nil, List.length_append, List.length_nil] at hle
      change r.bytes.length + _ ≤ 0 at hle
      change 0 < r.bytes.length at hpos
      omega
    | cons s ss =>
      obtain ⟨rest, hrest⟩ := h
      rw [List.flatMap_cons, List.flatMap_cons, List.append_assoc] at hrest
      obtain ⟨rfl, hsame⟩ := bytes_append_inj hrest
      exact List.cons_prefix_cons.mpr ⟨rfl, ih ⟨rest, hsame⟩⟩

def called (q : PacketType × Bytes) : List Callback :=
  callbacks ⟨some (packetNumber q.1), Buffer.sevenBit q.2.dropLast, []⟩

lemma answer_reply {W : Type} (wm : Served W) (corpus : Option Bytes) (w : W) (p : Processed) :
    ∀ q ∈ (answer wm corpus w p).2,
      q.1 ≠ .predict ∧ q.2 ≠ [] ∧ q.2.length ≤ Packet.maxBodyLength := by
  intro q hq
  rw [answer] at hq
  split at hq
  · dsimp only at hq
    split at hq
    · obtain rfl := List.mem_singleton.mp hq
      exact ⟨PacketType.noConfusion, by simp [Packet.maxBodyLength], List.length_take_le _ _⟩
    · cases hq
  · split at hq
    · obtain rfl := List.mem_singleton.mp hq
      obtain ⟨hne, hle⟩ := mistakesText_length (wm.trainingMistakes (trained wm corpus w))
      exact ⟨PacketType.noConfusion, hne, Nat.le_trans hle (by decide)⟩
    · split at hq
      · obtain ⟨body, hbody, rfl⟩ := List.mem_map.mp hq
        obtain ⟨hne, hle⟩ := summaryBodies_bounds _ body hbody
        exact ⟨PacketType.noConfusion, hne, hle⟩
      · cases hq

lemma answers_replies {W : Type} (wm : Served W) (corpus : Option Bytes) (w : W)
    (ps : List Processed) : ∃ rs : List Reply,
      (answers wm corpus w ps).2.flatMap Endpoint.frame = rs.flatMap Reply.bytes ∧
      (answers wm corpus w ps).2.flatMap called = rs.flatMap Reply.callbacks := by
  have hall (qs : List (PacketType × Bytes))
      (hqs : ∀ q ∈ qs, q.1 ≠ .predict ∧ q.2 ≠ [] ∧ q.2.length ≤ Packet.maxBodyLength) :
      ∃ rs : List Reply, qs.flatMap Endpoint.frame = rs.flatMap Reply.bytes ∧
        qs.flatMap called = rs.flatMap Reply.callbacks := by
    induction qs with
    | nil => exact ⟨[], rfl, rfl⟩
    | cons q qs ih =>
      obtain ⟨⟨htype, hne, hle⟩, hrest⟩ := List.forall_mem_cons.mp hqs
      obtain ⟨rs, hbytes, hcalled⟩ := ih hrest
      refine ⟨⟨q.1, htype, q.2, hne, hle⟩ :: rs, ?_, ?_⟩
      · rw [List.flatMap_cons, hbytes, List.flatMap_cons]
        rfl
      · rw [List.flatMap_cons, hcalled, List.flatMap_cons]
        rfl
  apply hall
  induction ps generalizing w with
  | nil => simp [answers]
  | cons p ps ih =>
    intro q hq
    rw [answers] at hq
    rcases List.mem_append.mp hq with hq | hq
    · exact answer_reply wm corpus w p q hq
    · exact ih _ q hq

inductive Ask where
  | predict (token : Bytes)
  | summary
  | train (token : Bytes)

namespace Ask

def type : Ask → PacketType
  | .predict _ => .predict
  | .summary => .summary
  | .train _ => .train

def string : Ask → Bytes
  | .predict token => token
  | .summary => []
  | .train token => token

-- `memory` is what the buffer holds that `create_buffer` makes.
def packet (a : Ask) (memory : Bytes) : Bytes :=
  encodePacket (packetNumber a.type) a.string memory

end Ask

lemma serve_encoded (p : Packet) (type : PacketType) {string memory : Bytes}
    (hstring : string.length + 1 ≤ maxBodyLength)
    (hmemory : memory.length = headerLength + maxBodyLength)
    (hwhite : ∀ c ∈ unwritten (string.length + 1) memory, isSpace c = true) :
    ∃ q : Packet, serve ⟨p, .header⟩ (encodePacket (packetNumber type) string memory) =
      (⟨q, .header⟩, [], [((type.code : ℤ), string ++ [0])]) := by
  have hnumber : packetNumber type < 10 := by cases type <;> decide
  have hsplit := unwritten_length hmemory hstring
  have hvalue := value_lengthText (string.length + 1)
  obtain ⟨hdigit, hcode⟩ := typeText type
  rw [encodePacket_eq hnumber hstring hmemory]
  generalize hheader : lengthText (string.length + 1) ++ unwritten (string.length + 1) memory ++
    [UInt8.ofNat (48 + packetNumber type)] = header
  have hlength : header.length = Packet.headerLength := by
    rw [← hheader, List.length_append, List.length_append, hsplit]
    rfl
  have htake : (p.store 0 header).data.take Packet.headerLength = lengthText (string.length + 1) ++
      unwritten (string.length + 1) memory ++ [UInt8.ofNat (48 + packetNumber type)] := by
    have hfits : header.length ≤ Packet.headerLength + Packet.maxBodyLength := by
      rw [hlength]
      exact Nat.le_add_right _ _
    rw [hheader, ← hlength, Packet.store_take hfits]
  have hfits : value (lengthText (string.length + 1)) ≤ Packet.maxBodyLength :=
    Nat.le_trans (Nat.le_of_eq hvalue) hstring
  obtain ⟨q, hq, hbody, htype⟩ : ∃ q : Packet, (p.store 0 header).decodeHeader = (q, true) ∧
      q.bodyLength = string.length + 1 ∧ q.type = type.code :=
    ⟨_, Packet.decodeHeader_digits (lengthText_isDigit _) (lengthText_ne_nil _) hsplit hwhite
      hdigit hfits htake, hvalue, congrArg Nat.cast hcode⟩
  have hfirst : complete ⟨p, .header⟩ header = (⟨q, .body⟩, []) := by
    simp [complete, onHeader, hq]
  have hfull : (string ++ [0]).length = q.bodyLength := by
    rw [hbody, List.length_append, List.length_singleton]
  have hsecond : complete ⟨q, .body⟩ (string ++ [0]) =
      (⟨q.store Packet.headerLength (string ++ [0]), .header⟩,
        [((type.code : ℤ), string ++ [0])]) := by
    have hbound : (string ++ [0]).length ≤ Packet.maxBodyLength := by
      rw [hfull, hbody]
      exact hstring
    have hstored := Packet.store_body (p := q) hbound
    have hprocessed : ((q.store Packet.headerLength (string ++ [0])).body).take
        (q.store Packet.headerLength (string ++ [0])).bodyLength = string ++ [0] := by
      have hkept : (q.store Packet.headerLength (string ++ [0])).bodyLength = q.bodyLength := rfl
      rw [hkept, ← hfull]
      exact hstored
    simp only [complete, onBody, Bool.false_eq_true, if_false]
    rw [hprocessed, ← htype]
    rfl
  refine ⟨q.store Packet.headerLength (string ++ [0]), ?_⟩
  have hnone : ¬ wanted ⟨q.store Packet.headerLength (string ++ [0]), .header⟩ ≤
      ([] : Bytes).length := Nat.not_succ_le_zero 4
  rw [serve_append hlength, hfirst, ← List.append_nil (string ++ [0]), serve_append hfull,
    List.append_nil, hsecond, serve_of_lt hnone]
  rfl

end NodeJs

open NodeJs

/-- A connection of a browser's: what its adaptor has written, how much of the answer has come
back in events, and what has been emitted -/
structure SocketServer (W : Type) where
  written : Bytes
  received : ℕ
  emitted : List Callback
  server : Service W

namespace SocketServer

inductive Fault where
  | server (e : Checked.Fault Sequence)
  | endless

inductive Event where
  | ask (a : Ask) (memory : Bytes)
  | server (e : Service.Event)
  | toServer (n : ℕ)
  | data (n : ℕ)

section

variable {W : Type} (wm : Served W) (corpus : Option Bytes)

def incoming (x : SocketServer W) (n : ℕ) : Bytes := (x.server.out.drop x.received).take n

def step (x : SocketServer W) : Event → Except Fault (SocketServer W)
  | .ask a memory => .ok { x with written := x.written ++ a.packet memory }
  | .server e =>
    match Service.step wm corpus x.server e with
    | .ok server => .ok { x with server := server }
    | .error e => .error (.server e)
  | .toServer n =>
    let bytes := (x.written.drop x.server.arrived.length).take n
    .ok { x with server := { x.server with arrived := x.server.arrived ++ bytes } }
  | .data n =>
    -- a handler that does come to its end takes a byte or more in each round
    match onData (x.incoming n).length (x.incoming n) with
    | some cs => .ok { x with
        received := x.received + (x.incoming n).length
        emitted := x.emitted ++ cs }
    | none => .error .endless

-- The packet of a string with other characters has more bytes than its length says.
def Event.CanOccur (x : SocketServer W) : Event → Prop
  | .ask a memory => (∀ c ∈ a.string, c.toNat < 128) ∧ memory.length = headerLength + maxBodyLength
  | .server e => e.CanOccur x.server ∧ ∀ bytes, e ≠ .arrive bytes
  | .toServer _ => True
  | .data n => x.incoming n ≠ []

/-- The packet that is asked with has the length it should and is one that the server reads,
and the events end where packets do. -/
def Event.Sound (x : SocketServer W) : Event → Prop
  | .ask a memory => a.string.length ≤ 511 ∧
      ∀ c ∈ unwritten (a.string.length + 1) memory, isSpace c = true
  | .data n => ∃ rs : List Reply, x.incoming n = rs.flatMap Reply.bytes
  | _ => True

def Event.Fails : Event → Prop
  | .server e => e.Fails
  | _ => False

def start (p : Packet) (w : W) : SocketServer W := ⟨[], 0, [], Service.start p w⟩

structure Done (x : SocketServer W) : Prop where
  server : x.server.Idle
  sent : x.server.arrived = x.written
  received : x.received = x.server.out.length

abbrev Reached (p : Packet) (w : W) (events : List Event) (x : SocketServer W) : Prop :=
  Runs.Run (step wm corpus) (fun x e => e.CanOccur x ∧ e.Sound x) (start p w) events x

def Event.asked : Event → List Processed
  | .ask a _ => [((a.type.code : ℤ), a.string ++ [0])]
  | _ => []

def asked (events : List Event) : List Processed := events.flatMap Event.asked

structure Passing (calm : Prop) (p : Packet) (w : W) (requests : List Processed)
    (x : SocketServer W) : Prop where
  serving : ∃ pushed log, Service.Serving wm corpus calm p w x.server pushed log
  written : ∀ q, ∃ q', serve ⟨q, .header⟩ x.written = (⟨q', .header⟩, [], requests)
  sent : x.server.arrived <+: x.written
  within : x.received ≤ x.server.out.length
  emitted : ∃ rs : List Reply, x.server.out.take x.received = rs.flatMap Reply.bytes ∧
    x.emitted = rs.flatMap Reply.callbacks

variable {wm corpus} {calm : Prop} {p : Packet} {w : W} {requests : List Processed}
  {x : SocketServer W} (h : Passing wm corpus calm p w requests x)

include h

lemma Passing.ask {a : Ask} {memory : Bytes} (hcan : (Event.ask a memory).CanOccur x)
    (hsound : (Event.ask a memory).Sound x) : Passing wm corpus calm p w
      (requests ++ [((a.type.code : ℤ), a.string ++ [0])])
      { x with written := x.written ++ a.packet memory } where
  serving := h.serving
  written q := by
    obtain ⟨q', hq'⟩ := h.written q
    obtain ⟨q'', hq''⟩ := serve_encoded q' a.type (Nat.succ_le_succ hsound.1) hcan.2 hsound.2
    refine ⟨q'', ?_⟩
    rw [serve_append_rest, hq', List.nil_append, Ask.packet, hq'']
  sent := h.sent.trans (List.prefix_append _ _)
  within := h.within
  emitted := h.emitted

lemma Passing.server {e : Service.Event} (hcan : (Event.server e).CanOccur x)
    (hcalm : calm → ¬ e.Fails) : ∃ t, Service.step wm corpus x.server e = .ok t ∧
      Passing wm corpus calm p w requests { x with server := t } := by
  obtain ⟨pushed, log, hs⟩ := h.serving
  obtain ⟨t, ht, hserving, -, hout, harrived⟩ := hs.step hcan.1 hcalm
  have htake : t.out.take x.received = x.server.out.take x.received := by
    obtain ⟨rest, hrest⟩ := hout
    rw [← hrest, List.take_append_of_le_length h.within]
  refine ⟨t, ht, hserving, h.written, ?_, h.within.trans hout.length_le, ?_⟩
  · rw [harrived hcan.2]
    exact h.sent
  · rw [htake]
    exact h.emitted

lemma Passing.toServer (n : ℕ) : Passing wm corpus calm p w requests
    { x with server := { x.server with
      arrived := x.server.arrived ++ (x.written.drop x.server.arrived.length).take n } } where
  serving := by
    obtain ⟨pushed, log, hs⟩ := h.serving
    exact ⟨pushed, log, hs.arrive _⟩
  written := h.written
  sent := Exchange.prefix_drop_take h.sent n
  within := h.within
  emitted := h.emitted

lemma Passing.data {n : ℕ} (hcan : (Event.data n).CanOccur x) (hsound : (Event.data n).Sound x) :
    ∃ cs, onData (x.incoming n).length (x.incoming n) = some cs ∧
      Passing wm corpus calm p w requests { x with
        received := x.received + (x.incoming n).length
        emitted := x.emitted ++ cs } := by
  obtain ⟨rs, hrs⟩ := hsound
  obtain ⟨received, hreceived, hemitted⟩ := h.emitted
  have hne : rs ≠ [] := by
    rintro rfl
    exact hcan hrs
  have hhandled : Handled (x.incoming n) (rs.flatMap Reply.callbacks) :=
    hrs ▸ (handled_replies hne).mpr rfl
  have htake : (x.server.out.drop x.received).take (x.incoming n).length = x.incoming n :=
    (List.prefix_iff_eq_take.mp (List.take_prefix n _)).symm
  have hle := (List.take_prefix n (x.server.out.drop x.received)).length_le
  refine ⟨_, onData_of_handled hcan hhandled, h.serving, h.written, h.sent, ?_, received ++ rs, ?_, ?_⟩
  · have hwithin := h.within
    rw [List.length_drop] at hle
    change (x.incoming n).length ≤ _ at hle
    dsimp only
    omega
  · dsimp only
    rw [List.take_add, htake, hreceived, hrs, List.flatMap_append]
  · dsimp only
    rw [hemitted, List.flatMap_append]

lemma Passing.step {e : Event} (hcan : e.CanOccur x) (hsound : e.Sound x)
    (hcalm : calm → ¬ e.Fails) : ∃ y, SocketServer.step wm corpus x e = .ok y ∧
      Passing wm corpus calm p w (requests ++ e.asked) y := by
  cases e with
  | ask a memory => exact ⟨_, rfl, h.ask hcan hsound⟩
  | server e =>
    obtain ⟨t, ht, hy⟩ := h.server hcan hcalm
    exact ⟨_, by rw [SocketServer.step, ht], (List.append_nil requests).symm ▸ hy⟩
  | toServer n => exact ⟨_, rfl, (List.append_nil requests).symm ▸ h.toServer n⟩
  | data n =>
    obtain ⟨cs, hcs, hy⟩ := h.data hcan hsound
    exact ⟨_, by rw [SocketServer.step, hcs], (List.append_nil requests).symm ▸ hy⟩

lemma Passing.emitted_prefix :
    x.emitted <+: (answers wm corpus w requests).2.flatMap called := by
  obtain ⟨pushed, log, hs⟩ := h.serving
  obtain ⟨rs, hrs, hemitted⟩ := h.emitted
  obtain ⟨q', hq'⟩ := h.written p
  obtain ⟨ss, hss, hcalled⟩ := answers_replies wm corpus w requests
  have hlog := serve_mono ⟨p, .header⟩ ((List.take_prefix x.server.taken _).trans h.sent)
  rw [hq'] at hlog
  have hout := (List.take_prefix x.received _).trans hs.out_prefix
  have hwhole := hout.trans ((answers_mono w hlog).flatMap _)
  rw [hrs, hss] at hwhole
  rw [hemitted, hcalled]
  exact (prefix_of_bytes hwhole).flatMap _

lemma Passing.done (hc : calm) (hd : x.Done) :
    x.emitted = (answers wm corpus w requests).2.flatMap called ∧
      x.server.writer.wm = (answers wm corpus w requests).1 := by
  obtain ⟨pushed, log, hs⟩ := h.serving
  obtain ⟨rs, hrs, hemitted⟩ := h.emitted
  obtain ⟨q', hq'⟩ := h.written p
  obtain ⟨ss, hss, hcalled⟩ := answers_replies wm corpus w requests
  obtain ⟨hout, hwm⟩ := hs.idle hc hd.server
  rw [hd.sent, hq'] at hout hwm
  rw [hd.received, List.take_length, hout, hss] at hrs
  have hsame : ss = rs := by
    have hforth := prefix_of_bytes (hrs ▸ List.prefix_rfl : ss.flatMap _ <+: rs.flatMap _)
    have hback := prefix_of_bytes (hrs ▸ List.prefix_rfl : rs.flatMap _ <+: ss.flatMap _)
    exact hforth.eq_of_length (Nat.le_antisymm hforth.length_le hback.length_le)
  rw [hemitted, hcalled, hsame]
  exact ⟨rfl, hwm⟩

end

section

variable {W : Type} {wm : Served W} {corpus : Option Bytes} {p : Packet} {w : W}
  {requests : List Processed} {x : SocketServer W} (h : Passing wm corpus True p w requests x)

include h

lemma Passing.exists_idle : ∃ (events : List Event) (y : SocketServer W),
    Runs.Run (SocketServer.step wm corpus) (fun x e => e.CanOccur x ∧ e.Sound x) x events y ∧
      (∀ e ∈ events, ¬ e.Fails) ∧ asked events = [] ∧
      Passing wm corpus True p w requests y ∧ y.server.arrived = y.written ∧ y.server.Idle := by
  have hwhole : x.server.arrived ++ (x.written.drop x.server.arrived.length).take x.written.length =
      x.written := by
    obtain ⟨rest, hrest⟩ := h.sent
    rw [← hrest, List.drop_left, List.take_of_length_le]
    rw [List.length_append]
    exact Nat.le_add_left _ _
  have hsent := h.toServer x.written.length
  rw [hwhole] at hsent
  obtain ⟨pushed, log, hs⟩ := hsent.serving
  obtain ⟨events, server, hrun, harrived, hidle⟩ := hs.exists_idle
  have hserved : Passing wm corpus True p w requests { x with server := server } := by
    refine hrun.invariant (P := fun s => Passing wm corpus True p w requests { x with server := s })
      (fun s e t hpassing he ht => ?_) hsent
    obtain ⟨t', ht', hnext⟩ := hpassing.server (e := e) he.1 fun _ => he.2
    obtain rfl := Except.ok.inj (ht.symm.trans ht')
    exact hnext
  refine ⟨.toServer x.written.length :: events.map .server, _, .cons ⟨trivial, trivial⟩ rfl ?_, ?_, ?_,
    hserved, harrived, hidle⟩
  · rw [hwhole]
    refine hrun.map (F := fun server => { x with server := server }) fun s e t he ht => ?_
    exact ⟨⟨he.1, trivial⟩, by rw [SocketServer.step, ht]⟩
  · rw [List.forall_mem_cons, List.forall_mem_map]
    exact ⟨id, hrun.forall_mem fun _ _ he => he.2⟩
  · simp [asked, Event.asked, List.flatMap_map]

lemma Passing.exists_done : ∃ (events : List Event) (y : SocketServer W),
    Runs.Run (SocketServer.step wm corpus) (fun x e => e.CanOccur x ∧ e.Sound x) x events y ∧
      (∀ e ∈ events, ¬ e.Fails) ∧ asked events = [] ∧ Done y := by
  obtain ⟨events, y, hrun, hcalm, hasked, hy, hsent, hidle⟩ := h.exists_idle
  by_cases hreceived : y.received = y.server.out.length
  · exact ⟨events, y, hrun, hcalm, hasked, hidle, hsent, hreceived⟩
  obtain ⟨pushed, log, hs⟩ := hy.serving
  obtain ⟨rs, hrs, -⟩ := hy.emitted
  obtain ⟨ss, hss, -⟩ := answers_replies wm corpus w (serve ⟨p, .header⟩ y.server.arrived).2.2
  have hincoming : y.incoming y.server.out.length = y.server.out.drop y.received :=
    List.take_of_length_le (by rw [List.length_drop]; exact Nat.sub_le _ _)
  have hout := (hs.idle trivial hidle).1.trans hss
  have hcan : (Event.data y.server.out.length).CanOccur y := by
    rw [Event.CanOccur, hincoming, ne_eq, List.drop_eq_nil_iff]
    have := hy.within
    omega
  have hsound : (Event.data y.server.out.length).Sound y := by
    obtain ⟨others, rfl⟩ : rs <+: ss := by
      refine prefix_of_bytes ?_
      rw [← hrs, ← hout]
      exact List.take_prefix _ _
    refine ⟨others, ?_⟩
    rw [List.flatMap_append, ← hrs] at hout
    rw [hincoming]
    exact List.append_cancel_left ((List.take_append_drop _ _).trans hout)
  obtain ⟨cs, hcs, -⟩ := hy.data hcan hsound
  have hstep : SocketServer.step wm corpus y (.data y.server.out.length) = .ok { y with
      received := y.received + (y.incoming y.server.out.length).length
      emitted := y.emitted ++ cs } := by rw [SocketServer.step, hcs]
  have hrun := hrun.concat ⟨hcan, hsound⟩ hstep
  refine ⟨_, _, hrun, ?_, ?_, hidle, hsent, ?_⟩
  · rw [List.forall_mem_append, List.forall_mem_singleton]
    exact ⟨hcalm, id⟩
  · rw [asked, List.flatMap_append, ← asked, hasked]
    rfl
  · dsimp only
    rw [hincoming, List.length_drop]
    have := hy.within
    omega

end

lemma start_passing {W : Type} (wm : Served W) (corpus : Option Bytes) (calm : Prop) (p : Packet)
    (w : W) : Passing wm corpus calm p w [] (start p w) where
  serving := ⟨[], [], Service.start_serving wm corpus calm p w⟩
  written q := by
    have hnone : ¬ wanted ⟨q, .header⟩ ≤ ([] : Bytes).length := Nat.not_succ_le_zero 4
    exact ⟨q, serve_of_lt hnone⟩
  sent := List.nil_prefix
  within := Nat.le_refl 0
  emitted := ⟨[], rfl, rfl⟩

lemma Reached.passing {W : Type} {wm : Served W} {corpus : Option Bytes} {p : Packet} {w : W}
    {events : List Event} {x : SocketServer W} (h : Reached wm corpus p w events x) (calm : Prop)
    (hcalm : calm → ∀ e ∈ events, ¬ e.Fails) : Passing wm corpus calm p w (asked events) x := by
  suffices hall : (calm → ∀ e ∈ events, ¬ e.Fails) →
      Passing wm corpus calm p w (asked events) x from hall hcalm
  refine Runs.Run.history (P := fun events x => (calm → ∀ e ∈ events, ¬ e.Fails) →
    Passing wm corpus calm p w (asked events) x) h ?_ fun _ => start_passing wm corpus calm p w
  intro events x e y hx hcan he hnone
  have hpassing := hx fun hc d hd => hnone hc d (List.mem_append_left _ hd)
  obtain ⟨y', hy', hnext⟩ := hpassing.step hcan.1 hcan.2 fun hc => hnone hc e (by simp)
  rw [he, Except.ok.injEq] at hy'
  rw [asked, List.flatMap_append, List.flatMap_singleton, hy']
  exact hnext

theorem browser_law {W : Type} (wm : Served W) (corpus : Option Bytes) (p : Packet) (w : W)
    (events : List Event) (x : SocketServer W) (h : Reached wm corpus p w events x) :
    x.emitted <+: (answers wm corpus w (asked events)).2.flatMap called ∧
    (∀ e, e.CanOccur x → e.Sound x → ∃ y, step wm corpus x e = .ok y) ∧
    ((∀ e ∈ events, ¬ e.Fails) → Done x →
      x.emitted = (answers wm corpus w (asked events)).2.flatMap called ∧
      x.server.writer.wm = (answers wm corpus w (asked events)).1) := by
  have hpassing := h.passing False False.elim
  refine ⟨hpassing.emitted_prefix, fun e hcan hsound => ?_, fun hcalm hd => ?_⟩
  · obtain ⟨y, hy, -⟩ := hpassing.step hcan hsound False.elim
    exact ⟨y, hy⟩
  · exact (h.passing (∀ e ∈ events, ¬ e.Fails) id).done hcalm hd

theorem browser_law_word :
    let wm : Served Unit := ⟨fun _ _ => (), fun _ => ((), [97]), fun _ => ((), []), fun _ => 4⟩
    let memory := List.replicate 517 (0 : UInt8)
    ∃ events x, Reached wm none (Packet.fresh memory List.length_replicate) ()
        ([.ask (.predict [104, 105]) memory, .toServer 5, .ask (.predict [32]) memory] ++ events) x ∧
      Done x ∧ x.emitted = [.prediction [97], .prediction [97]] := by
  intro wm memory
  have hlength : memory.length = headerLength + maxBodyLength := List.length_replicate
  have hwhite (n : ℕ) (hn : n < 20) : ∀ c ∈ unwritten n memory, isSpace c = true := by
    simp [unwritten, NodeJs.written, hn]
  have hascii : ∀ c ∈ ([104, 105] : Bytes), c.toNat < 128 := by simp
  have hspace : ∀ c ∈ ([32] : Bytes), c.toNat < 128 := by simp
  have hcalled : (answers wm none () (asked [.ask (.predict [104, 105]) memory, .toServer 5,
      .ask (.predict [32]) memory])).2.flatMap called = [.prediction [97], .prediction [97]] := by
    have hpackets : (answers wm none () (asked [.ask (.predict [104, 105]) memory, .toServer 5,
        .ask (.predict [32]) memory])).2 = [(.prediction, [97, 0]), (.prediction, [97, 0])] := rfl
    rw [hpackets]
    decide
  have hasks : Reached wm none (Packet.fresh memory List.length_replicate) ()
      [.ask (.predict [104, 105]) memory, .toServer 5, .ask (.predict [32]) memory]
      (_ : SocketServer Unit) :=
    .cons ⟨⟨hascii, hlength⟩, Nat.le_of_ble_eq_true rfl, hwhite 3 (by decide)⟩ rfl
      (.cons ⟨trivial, trivial⟩ rfl
      (.cons ⟨⟨hspace, hlength⟩, Nat.le_of_ble_eq_true rfl, hwhite 2 (by decide)⟩ rfl .nil))
  have hmeek : ∀ e ∈ ([.ask (.predict [104, 105]) memory, .toServer 5,
      .ask (.predict [32]) memory] : List Event), ¬ e.Fails := by simp [Event.Fails]
  obtain ⟨events, x, hrun, hcalm, hnone, hdone⟩ := (hasks.passing True fun _ => hmeek).exists_done
  have h := Runs.Run.append hasks hrun
  obtain ⟨hemitted, -⟩ := (browser_law wm none _ () _ _ h).2.2
    (List.forall_mem_append.mpr ⟨hmeek, hcalm⟩) hdone
  rw [asked, List.flatMap_append, ← asked, ← asked, hnone, List.append_nil, hcalled] at hemitted
  exact ⟨events, x, h, hdone, hemitted⟩

end SocketServer

end WordModel
