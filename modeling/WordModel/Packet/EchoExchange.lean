import WordModel.Packet.Delivery

/-! Words that are typed at one end and echoed at the other are printed as they were typed, and
after the last of them nothing is left to be done. -/

namespace WordModel

open Checked Decimal Packet Endpoint Stretches

namespace StdinTcp

def asked (r : Bytes × Option UInt8) : PacketType × Bytes := (.predict, r.1 ++ [r.2.getD 0, 0])

def Encoded (p : Packet) : Prop :=
  p.wire = header .predict p.bodyLength ++ p.body.take p.bodyLength

lemma encodeHeader_encoded {p : Packet} (h : p.type = PacketType.predict.code) :
    Encoded p.encodeHeader := by
  have hwire : p.encodeHeader.wire = header .predict p.bodyLength ++ p.body.take p.bodyLength := by
    rw [← encodeHeader_wire, setType, ← h]
  have hbody : p.encodeHeader.body.take p.bodyLength = p.body.take p.bodyLength := by
    have hdrop := body_take p.encodeHeader
    rw [hwire, ← header_length .predict p.bodyLength_le, List.drop_left] at hdrop
    exact hdrop
  rw [Encoded, hwire]
  exact congrArg _ hbody.symm

lemma readChar_encoded {blank : ℕ → Packet} {s t : Reader} {c : UInt8}
    (he : readChar blank s c = .ok t) (h : ∀ p ∈ s.queued, Encoded p) : ∀ p ∈ t.queued, Encoded p := by
  rw [readChar] at he
  split at he
  · split at he
    · obtain ⟨word, _, he⟩ := bind_eq_ok.mp he
      obtain ⟨word', _, he⟩ := bind_eq_ok.mp he
      obtain rfl := Except.ok.inj he
      intro p hp
      rcases List.mem_append.mp hp with hp | hp
      · exact h p hp
      · rw [List.mem_singleton.mp hp]
        exact encodeHeader_encoded rfl
    · obtain rfl := Except.ok.inj he
      exact h
  · obtain ⟨word, _, he⟩ := bind_eq_ok.mp he
    obtain rfl := Except.ok.inj he
    exact h

lemma readLoop_encoded {blank : ℕ → Packet} {s t : Reader} {stream : Bytes}
    (he : readLoop blank s stream = .ok t) (h : ∀ p ∈ s.queued, Encoded p) :
    ∀ p ∈ t.queued, Encoded p := by
  induction stream generalizing s with
  | nil => exact readChar_encoded he h
  | cons c stream ih =>
    obtain ⟨m, hm, he⟩ := bind_eq_ok.mp he
    exact ih he (readChar_encoded hm h)

lemma Asks.wire {r : Bytes × Option UInt8} {p : Packet} (h : Asks r p) (he : Encoded p) :
    p.wire = frame (asked r) := by
  obtain ⟨-, c, hc, hbody⟩ := h
  have hlength : p.bodyLength = (r.1 ++ [c, 0]).length := by
    have hdata := p.data_length
    have hle := p.bodyLength_le
    rw [← hbody, List.length_take, body, List.length_drop]
    omega
  rw [he, hbody, frame, asked, hc, hlength]
  rfl

lemma flatMap_wire {rs : List (Bytes × Option UInt8)} {ps : List Packet}
    (h : List.Forall₂ Asks rs ps) (he : ∀ p ∈ ps, Encoded p) :
    ps.flatMap Packet.wire = (rs.map asked).flatMap frame := by
  induction h with
  | nil => rfl
  | cons hasks _ ih =>
    obtain ⟨hp, hps⟩ := List.forall_mem_cons.mp he
    rw [List.flatMap_cons, List.map_cons, List.flatMap_cons, hasks.wire hp, ih hps]

lemma asked_sendable {stream : Bytes} (h : ∀ r ∈ runs isSpace stream, Fits r) :
    ∀ q ∈ (runs isSpace stream).map asked, q.2.length ≤ maxBodyLength ∧ 0 ∈ q.2 := by
  intro q hq
  obtain ⟨r, hr, rfl⟩ := List.mem_map.mp hq
  refine ⟨?_, by simp [asked]⟩
  have hfits := (h r hr).2
  simpa [asked] using hfits

lemma readLoop_requests (blank : ℕ → Packet) (memory : Fin (maxBodyLength + 1) → UInt8)
    {stream : Bytes} (hfits : ∀ r ∈ runs isSpace stream, Fits r) :
    ∃ reader, readLoop blank (start memory) stream = .ok reader ∧
      reader.queued.flatMap Packet.wire = ((runs isSpace stream).map asked).flatMap frame := by
  obtain ⟨reader, packets, hreader, hqueued, hasks⟩ :=
    readLoop_of_fits blank (reading_start memory) hfits
  rw [start, List.nil_append] at hqueued
  rw [← hqueued] at hasks
  have hencoded := readLoop_encoded hreader (by simp [start])
  exact ⟨reader, hreader, flatMap_wire hasks hencoded⟩

end StdinTcp

namespace ServiceServer

def peer : Peer (Fault Container) Endpoint Endpoint.Event where
  step := Endpoint.step handlers
  CanOccur s e := e.CanOccur s ∧ Own e ∧ ∀ bytes, e ≠ .arrive bytes
  Fails := Fails
  arrive s bytes := { s with arrived := s.arrived ++ bytes }
  arrived := arrived
  out s := s.outbox.out
  Idle := Endpoint.Idle

def Echoed (requests : List (PacketType × Bytes)) (calm : Prop) (s : Endpoint) : Prop :=
  ∃ delivered k, Echoes calm s delivered ∧ Reads calm requests s k

lemma reads_opened {calm : Prop} {requests : List (PacketType × Bytes)} {s : Endpoint} {k : ℕ}
    (hk : Reads calm requests s k) {ec : Bool} (he : Event.CanOccur s (.opened ec)) :
    ∃ t, step handlers s (.opened ec) = .ok t ∧ (∃ k, Reads calm requests t k) ∧
      t.arrived = s.arrived ∧ s.outbox.out <+: t.outbox.out := by
  cases ec with
  | true => exact ⟨_, rfl, ⟨k, hk.of_same rfl rfl rfl rfl (Bool.or_false _)⟩, rfl, List.prefix_rfl⟩
  | false =>
    obtain ⟨hp, rfl, hopen⟩ := hk.open_next (he.2 rfl).1
    refine ⟨_, rfl, ⟨0, hopen _ ?_ (Bool.or_true _) rfl rfl⟩, rfl, List.prefix_rfl⟩
    simp [handlers, onAccept, doAccept, doReadHeader, print, hp]

section

variable {calm : Prop} {requests : List (PacketType × Bytes)} {s : Endpoint} {delivered : List Packet}
  {k : ℕ} (hs : Echoes calm s delivered) (hk : Reads calm requests s k)
  (hsend : ∀ q ∈ requests, q.2.length ≤ maxBodyLength ∧ 0 ∈ q.2)

include hs hk hsend

lemma Echoes.reads_read {ec : Bool} {n : ℕ} (he : Event.CanOccur s (.read ec n))
    (hcalm : calm → ec = false) :
    ∃ t, Endpoint.step handlers s (.read ec n) = .ok t ∧ (∃ k, Reads calm requests t k) ∧
      t.arrived = s.arrived ∧ s.outbox.out <+: t.outbox.out := by
  obtain ⟨r, hrs, hn, hopen⟩ := hk.of_read he
  have hlengths (q : PacketType × Bytes) (hq : q ∈ requests) := (hsend q hq).1
  rw [step_read handlers hrs]
  cases ec with
  | true =>
    have hfail : ¬ calm := fun hc => Bool.false_ne_true (hcalm hc).symm
    have hreads := hk.fail (t := { s with
      readPacket := s.received r n
      posted := []
      taken := s.taken + n }) rfl hopen hn rfl hfail
    cases r with
    | header => exact ⟨_, rfl, ⟨k, hreads⟩, rfl, List.prefix_rfl⟩
    | body => exact ⟨_, rfl, ⟨k, hreads⟩, rfl, List.prefix_rfl⟩
  | false =>
    cases r with
    | header =>
      obtain ⟨haccepted, hnext⟩ := hk.header_next hlengths hrs he
      generalize s.received .header n = p at haccepted hnext
      let t : Endpoint := { s with readPacket := p, posted := [], taken := s.taken + n }
      have hstep : handlers.onRead false t .header =
          .ok (doReadBody { t with readPacket := p.decodeHeader.1 }) :=
        congrArg Except.ok (onHeader_accepted id (s := t) haccepted)
      exact ⟨_, hstep, ⟨k, hnext _ rfl rfl rfl rfl rfl⟩, rfl, List.prefix_rfl⟩
    | body =>
      obtain ⟨q, hq, htype, hprefix, hnext⟩ := hk.body_next hlengths hrs he
      generalize s.received .body n = p at htype hprefix
      have hprintable : Printable p := by
        refine ⟨?_, hprefix.subset (hsend q (List.mem_of_getElem? hq)).2⟩
        rw [htype]
        cases q.1 <;> decide
      obtain ⟨text, htext⟩ := report_eq_ok.mpr hprintable
      obtain ⟨outbox, hpush, -, hout, -⟩ :=
        hs.flows.push Container.writePackets (List.cons_ne_nil p [])
      let t : Endpoint := { s with readPacket := p, posted := [], taken := s.taken + n }
      have hstep : handlers.onRead false t .body = _ := onRead_body hpush htext
      refine ⟨_, hstep, ⟨k + 1, hnext _ rfl rfl rfl rfl⟩, rfl, ?_⟩
      change s.outbox.out <+: outbox.out
      exact hout ▸ List.prefix_rfl

lemma Echoes.reads_step {e : Endpoint.Event} (he : peer.CanOccur s e) (hcalm : calm → ¬ Fails e) :
    ∃ t, Endpoint.step handlers s e = .ok t ∧ (∃ k, Reads calm requests t k) ∧
      t.arrived = s.arrived ∧ s.outbox.out <+: t.outbox.out := by
  obtain ⟨hcan, hown, harrive⟩ := he
  cases e with
  | write p => exact hown.elim
  | close => exact hown.elim
  | arrive bytes => exact (harrive bytes rfl).elim
  | opened ec => exact reads_opened hk hcan
  | read ec n => exact hs.reads_read hk hsend hcan fun hc => by simpa [Fails] using hcalm hc
  | transmit i n =>
    obtain ⟨outbox, ht, -, hout, -⟩ :=
      hs.flows.transmit Container.writePackets .writes hcan.1 n
    refine ⟨{ s with outbox := outbox }, ?_, ⟨k, hk.of_same rfl rfl rfl rfl rfl⟩, rfl, hout⟩
    simp only [Endpoint.step, ht]
    rfl
  | written i ec =>
    obtain ⟨outbox, ht, -, hout, -⟩ :=
      hs.flows.finish Container.writePackets .writes hcan.1 hcan.2
    refine ⟨{ s with outbox := outbox }, ?_, ⟨k, hk.of_same rfl rfl rfl rfl rfl⟩, rfl, ?_⟩
    · simp only [Endpoint.step, ht]
      rfl
    · change s.outbox.out <+: outbox.out
      exact hout ▸ List.prefix_rfl

end

lemma peer_serves {requests : List (PacketType × Bytes)}
    (hsend : ∀ q ∈ requests, q.2.length ≤ maxBodyLength ∧ 0 ∈ q.2) (calm : Prop) :
    peer.Serves calm requests requests (Echoed requests calm) where
  step := by
    rintro s e ⟨delivered, k, hs, hk⟩ he hcalm
    obtain ⟨t, ht, ⟨k', hk'⟩, harrived, hout⟩ := hs.reads_step hk hsend he hcalm
    obtain ⟨delivered', hs'⟩ := (hs.step he.1 he.2.1 hcalm).1 t ht
    exact ⟨t, ht, ⟨delivered', k', hs', hk'⟩, harrived, hout⟩
  arrive := by
    rintro s bytes ⟨delivered, k, hs, hk⟩ hb
    exact ⟨⟨delivered, k, hs.arrive bytes, hk.arrive hb⟩, rfl, rfl⟩
  out := by
    rintro s ⟨delivered, k, hs, hk⟩
    exact ((hs.flows.out_prefix.trans hs.delivered_prefix).trans s.consumed_prefix).trans hk.arrived
  idle := by
    rintro s ⟨delivered, k, hs, hk⟩ hc hi hall
    obtain ⟨-, hp, hconsumed⟩ := hk.all (fun q hq => (hsend q hq).1) hc hi.1 hall hi.2.2
    have hout := hs.flows.out_eq_of_flowing (hs.flowing hc) hi.2.1
    change s.outbox.out = _
    rw [hout, ← hconsumed]
    cases hs.echoing with
    | unconnected hn => rw [hi.1] at hn; cases hn
    | header _ _ hd => exact hd.symm
    | body _ hp' => rw [hp] at hp'; cases hp'
    | ended _ _ hp' => rw [hp] at hp'; cases hp'

lemma start_echoed (requests : List (PacketType × Bytes)) (calm : Prop) (p : Packet) :
    Echoed requests calm (start p) :=
  ⟨[], 0, start_echoes calm p, fun hp => (hp rfl).elim, Nat.le_refl 0, List.nil_prefix,
    Nat.zero_le _, .unopened rfl rfl rfl rfl⟩

lemma handlers_steady : handlers.Steady where
  opened s := ⟨true, s.printed ++ [literal "About to read header\n"], rfl⟩
  header := ⟨id, rfl⟩
  body s t ht := by
    obtain ⟨text, -, ht⟩ := bind_eq_ok.mp ht
    obtain ⟨m, hm, ht⟩ := bind_eq_ok.mp ht
    obtain ⟨outbox, hpush, hm⟩ := bind_eq_ok.mp hm
    obtain rfl := Except.ok.inj hm
    refine ⟨outbox, _, ?_, (Except.ok.inj ht).symm⟩
    rw [Outbox.progress_push hpush]
    exact Nat.le_add_right _ _
  written s := rfl

def Accepting (s : Endpoint) : Prop := s.opening = true ∧ s.closed = false

lemma onHeader_socket (ec : Bool) (s : Endpoint) :
    (Endpoint.onHeader id ec s).opening = s.opening ∧ (Endpoint.onHeader id ec s).closed = s.closed := by
  rw [onHeader]
  generalize s.readPacket.decodeHeader = r
  obtain ⟨p, accepted⟩ := r
  cases ec with
  | true => exact ⟨rfl, rfl⟩
  | false => cases accepted <;> exact ⟨rfl, rfl⟩

lemma Accepting.step {s t : Endpoint} {e : Endpoint.Event} (h : Accepting s) (he : Own e)
    (ht : Endpoint.step handlers s e = .ok t) : Accepting t := by
  cases e with
  | write p => exact he.elim
  | close => exact he.elim
  | arrive bytes =>
    obtain rfl := Except.ok.inj ht
    exact h
  | opened ec =>
    obtain rfl := Except.ok.inj ht
    cases ec with
    | false => exact ⟨rfl, h.2⟩
    | true => exact ⟨rfl, h.2⟩
  | read ec n =>
    obtain ⟨⟨r, posted⟩, -, ht⟩ := bind_eq_ok.mp ht
    generalize s.received r n = p at ht
    cases r with
    | header =>
      obtain rfl := Except.ok.inj ht
      obtain ⟨hopening, hclosed⟩ := onHeader_socket ec _
      exact ⟨hopening.trans h.1, hclosed.trans h.2⟩
    | body =>
      cases ec with
      | true =>
        obtain rfl := Except.ok.inj ht
        exact h
      | false =>
        obtain ⟨outbox, printed, -, rfl⟩ := handlers_steady.body _ t ht
        exact h
  | transmit i n =>
    obtain ⟨outbox, -, ht⟩ := bind_eq_ok.mp ht
    obtain rfl := Except.ok.inj ht
    exact h
  | written i ec =>
    obtain ⟨outbox, -, ht⟩ := bind_eq_ok.mp ht
    obtain rfl := Except.ok.inj ht
    exact h

lemma serves_accepting {requests : List (PacketType × Bytes)}
    (hsend : ∀ q ∈ requests, q.2.length ≤ maxBodyLength ∧ 0 ∈ q.2) :
    peer.Serves True requests requests (fun s => Echoed requests True s ∧ Accepting s) where
  step := by
    rintro s e ⟨hs, ha⟩ he hcalm
    obtain ⟨t, ht, hinv, hsame⟩ := (peer_serves hsend True).step s e hs he hcalm
    exact ⟨t, ht, ⟨hinv, ha.step he.2.1 ht⟩, hsame⟩
  arrive := by
    rintro s bytes ⟨hs, ha⟩ hb
    obtain ⟨hinv, hsame⟩ := (peer_serves hsend True).arrive s bytes hs hb
    exact ⟨⟨hinv, ha⟩, hsame⟩
  out s hs := (peer_serves hsend True).out s hs.1
  idle s hs := (peer_serves hsend True).idle s hs.1

lemma live {requests : List (PacketType × Bytes)}
    (hsend : ∀ q ∈ requests, q.2.length ≤ maxBodyLength ∧ 0 ∈ q.2) :
    peer.Live Endpoint.progress
      (2 * (requests.flatMap frame).length + 2 * (requests.flatMap frame).length + 1)
      (fun s => Echoed requests True s ∧ Accepting s) where
  step := by
    rintro s e t ⟨⟨delivered, k, hs, hk⟩, ha⟩ ⟨hcan, hown, harrive⟩ hfail ht
    have further (hsucceeds : e.Succeeds) : t = s ∨ s.progress < t.progress :=
      (hk.succeeds handlers_steady (fun q hq => (hsend q hq).1) hcan hsucceeds ht).1
    cases e with
    | write p => exact hown.elim
    | close => exact hown.elim
    | arrive bytes => exact (harrive bytes rfl).elim
    | opened ec =>
      cases ec with
      | false => exact further .opened
      | true =>
        -- the server listens again, as before
        left
        rw [← Except.ok.inj ht]
        change { s with opening := true, connected := s.connected || !true } = s
        rw [Bool.not_true, Bool.or_false, ← ha.1]
    | read ec n =>
      obtain rfl : ec = false := by simpa [peer, Fails] using hfail
      exact further (.read n)
    | transmit i n => exact further (.transmit i n)
    | written i ec =>
      obtain rfl : ec = false := by simpa [peer, Fails] using hfail
      exact further (.written i)
  arrive s bytes := by
    change s.outbox.progress + (s.arrived ++ bytes).length +
      (s.taken + if s.posted = [.header] then 1 else 0) = _
    rw [List.length_append, Endpoint.progress]
    omega
  arrive_nil s := by simp [peer]
  le := by
    rintro s ⟨⟨delivered, k, hs, hk⟩, -⟩
    have hle := hk.progress_le hs.flows
    have hdelivered :=
      ((hs.delivered_prefix.trans s.consumed_prefix).trans hk.arrived).length_le
    omega
  goes_on := by
    rintro s ⟨⟨delivered, k, hs, hk⟩, ha⟩ hi
    obtain ⟨e, hcan, hsucceeds, hne⟩ := hk.goes_on handlers_steady (fun q hq => (hsend q hq).1)
      hs.flows ⟨ha.2, Or.inr ha.1⟩ hi
    refine ⟨e, ⟨hcan, ?_, ?_⟩, ?_, hne⟩
    · cases hsucceeds <;> trivial
    · rintro bytes rfl
      cases hsucceeds
    · cases hsucceeds <;> simp [peer, Fails]

lemma exists_done {blank : ℕ → Packet} {memory : Fin (maxBodyLength + 1) → UInt8} {stream : Bytes}
    (hfits : ∀ r ∈ runs isSpace stream, StdinTcp.Fits r) {reader : StdinTcp.Reader}
    (hreader : StdinTcp.readLoop blank (StdinTcp.start memory) stream = .ok reader) (p q : Packet) :
    ∃ events x, Exchange.Going peer (Exchange.start p reader.queued (start q)) events x ∧
      (∀ e, ¬ Exchange.Event.Goes peer x e) ∧ Exchange.Done peer x := by
  obtain ⟨reader', hreader', hqueue⟩ := StdinTcp.readLoop_requests blank memory hfits
  obtain rfl := Except.ok.inj (hreader.symm.trans hreader')
  have hsend := StdinTcp.asked_sendable hfits
  exact Exchange.Going.exists_done (serves_accepting hsend) (live hsend) hsend hqueue
    ⟨start_echoed _ True q, rfl, rfl⟩ rfl p

theorem exchange_law (blank : ℕ → Packet) (memory : Fin (maxBodyLength + 1) → UInt8)
    (stream : Bytes) (hfits : ∀ r ∈ runs isSpace stream, StdinTcp.Fits r) :
    ∃ reader, StdinTcp.readLoop blank (StdinTcp.start memory) stream = .ok reader ∧
      ∀ (p q : Packet) (events : List (Exchange.Event Endpoint.Event)) (x : Exchange Endpoint),
        Exchange.Reached peer (Exchange.start p reader.queued (start q)) events x →
        x.client.printed <+: (runs isSpace stream).map (ServiceClient.shown ∘ StdinTcp.asked) ∧
        (∀ e, e.CanOccur peer x → ∃ y, Exchange.step peer x e = .ok y) ∧
        ((∀ e ∈ events, ¬ e.Fails peer) → Exchange.Done peer x →
          x.client.printed = (runs isSpace stream).map (ServiceClient.shown ∘ StdinTcp.asked)) := by
  obtain ⟨reader, hreader, hqueue⟩ := StdinTcp.readLoop_requests blank memory hfits
  have hsend := StdinTcp.asked_sendable hfits
  refine ⟨reader, hreader, fun p q events x h => ?_⟩
  rw [← List.map_map]
  exact h.printed (peer_serves hsend) hsend hqueue (fun calm => start_echoed _ calm q) rfl

theorem exchange_law_hi :
    let blank := fresh (List.replicate 517 0) (by rw [List.length_replicate]; rfl)
    ∃ reader, StdinTcp.readLoop (fun _ => blank) (StdinTcp.start fun _ => 0) [104, 105, 32] =
        .ok reader ∧
      ∃ events x, Exchange.Reached peer (Exchange.start blank reader.queued (start blank)) events x ∧
        (∀ e ∈ events, ¬ e.Fails peer) ∧ Exchange.Done peer x ∧
        x.client.printed = [ServiceClient.shown (.predict, [104, 105, 32, 0])] := by
  intro blank
  have hruns : runs isSpace [104, 105, 32] = [([104, 105], some 32)] := by decide
  have hfits := StdinTcp.fits_of_runs_eq hruns ⟨rfl, by decide⟩
  obtain ⟨reader, hreader, hall⟩ := exchange_law (fun _ => blank) (fun _ => 0) _ hfits
  obtain ⟨events, x, hgoing, -, hdone⟩ := exists_done hfits hreader blank blank
  obtain ⟨h, hcalm⟩ := hgoing.reached
  have hprinted := (hall blank blank events x h).2.2 hcalm hdone
  rw [hruns] at hprinted
  exact ⟨reader, hreader, events, x, h, hcalm, hdone, hprinted⟩

theorem delivery_law (blank : ℕ → Packet) (memory : Fin (maxBodyLength + 1) → UInt8)
    (stream : Bytes) (hfits : ∀ r ∈ runs isSpace stream, StdinTcp.Fits r) :
    let requests := (runs isSpace stream).map StdinTcp.asked
    ∃ reader, StdinTcp.readLoop blank (StdinTcp.start memory) stream = .ok reader ∧
      ∀ (p q : Packet) (events : List (Exchange.Event Endpoint.Event)) (x : Exchange Endpoint),
        Exchange.Going peer (Exchange.start p reader.queued (start q)) events x →
        events.length ≤ 8 * (requests.flatMap frame).length + 2 ∧
        ((∀ e, ¬ Exchange.Event.Goes peer x e) →
          x.client.printed = requests.map ServiceClient.shown) := by
  intro requests
  obtain ⟨reader, hreader, hqueue⟩ := StdinTcp.readLoop_requests blank memory hfits
  have hsend := StdinTcp.asked_sendable hfits
  refine ⟨reader, hreader, fun p q events x h => ?_⟩
  obtain ⟨hlength, hdone⟩ := h.delivered (serves_accepting hsend) (live hsend) hsend hqueue
    ⟨start_echoed _ True q, rfl, rfl⟩ rfl
  refine ⟨hlength.trans (Nat.le_of_eq ?_), hdone⟩
  ring

theorem delivery_law_hi :
    let blank := fresh (List.replicate 517 0) (by rw [List.length_replicate]; rfl)
    ∃ reader, StdinTcp.readLoop (fun _ => blank) (StdinTcp.start fun _ => 0) [104, 105, 32] =
        .ok reader ∧
      ∃ events x, Exchange.Going peer (Exchange.start blank reader.queued (start blank)) events x ∧
        (∀ e, ¬ Exchange.Event.Goes peer x e) ∧ events.length ≤ 74 ∧
        x.client.printed = [ServiceClient.shown (.predict, [104, 105, 32, 0])] := by
  intro blank
  have hruns : runs isSpace [104, 105, 32] = [([104, 105], some 32)] := by decide
  have hfits := StdinTcp.fits_of_runs_eq hruns ⟨rfl, by decide⟩
  obtain ⟨reader, hreader, hall⟩ := delivery_law (fun _ => blank) (fun _ => 0) _ hfits
  obtain ⟨events, x, h, hstuck, -⟩ := exists_done hfits hreader blank blank
  obtain ⟨hlength, hprinted⟩ := hall blank blank events x h
  have hprinted := hprinted hstuck
  rw [hruns] at hlength hprinted
  exact ⟨reader, hreader, events, x, h, hstuck, hlength, hprinted⟩

end ServiceServer

end WordModel
