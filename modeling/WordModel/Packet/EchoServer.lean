import WordModel.Packet.Endpoint

/-! The server that sends every packet back, whoever connects first. -/

namespace WordModel.ServiceServer

open Checked Decimal Packet Endpoint

def doAccept (s : Endpoint) : Endpoint := { s with opening := true }

def start (p : Packet) : Endpoint := doAccept ⟨p, [], .empty, [], false, false, false, [], 0⟩

def packetStrings : List Bytes := ["Train", "Predict", "Prediction", "Summary"].map literal

def typeString (p : Packet) : Exec Container Bytes :=
  if p.type < 0 then .error (.outOfRange .packetStrings 0 packetStrings.length)
  else fetch .packetStrings packetStrings p.type.toNat

def report (p : Packet) : Exec Container Bytes := do
  let type ← typeString p
  let body ← cString p.body
  return literal "---------------------\nLength: " ++ decimal p.bodyLength ++ literal "\n" ++ type ++
    literal "\n" ++ body ++ literal "\n---------------------\n"

def onAccept (ec : Bool) (s : Endpoint) : Endpoint :=
  doAccept (if ec then s else (s.print (literal "About to read header\n")).doReadHeader)

def onBody (ec : Bool) (s : Endpoint) : Exec Container Endpoint :=
  if ec then .ok s
  else do
    let text ← report s.readPacket
    let s ← (s.print text).deliver s.readPacket
    return s.doReadHeader

def handlers : Handlers := ⟨onAccept, onHeader id, onBody, fun _ s => s⟩

/-- Nobody writes to its queue or closes its socket but the handlers. -/
def Own : Event → Prop
  | .write _ => False
  | .close => False
  | _ => True

abbrev Reached (p : Packet) (events : List Event) (s : Endpoint) : Prop :=
  Runs.Run (step handlers) (fun s e => e.CanOccur s ∧ Own e) (start p) events s

def Fails : Event → Prop
  | .read ec _ => ec = true
  | .written _ ec => ec = true
  | _ => False

/-- What has been read is what was delivered, and what has come of the packet after it. -/
inductive Echoing (quiet : Prop) (s : Endpoint) (delivered : List Packet) : Prop
  | unconnected : s.connected = false → s.posted = [] → s.taken = 0 → delivered = [] →
      Echoing quiet s delivered
  | header : s.connected = true → s.posted = [.header] → s.consumed = delivered.flatMap wire →
      Echoing quiet s delivered
  | body : s.connected = true → s.posted = [.body] →
      s.consumed = delivered.flatMap wire ++ s.readPacket.data.take headerLength →
      Echoing quiet s delivered
  | ended (rest : Bytes) : s.connected = true → s.posted = [] →
      s.consumed = delivered.flatMap wire ++ rest → (quiet → rest.length ≤ headerLength) →
      Echoing quiet s delivered

structure Echoes (quiet : Prop) (s : Endpoint) (delivered : List Packet) : Prop where
  taken : s.taken ≤ s.arrived.length
  flows : s.outbox.Flows wire delivered
  flowing : quiet → ¬ s.outbox.Stalled
  echoing : Echoing quiet s delivered

lemma start_echoes (quiet : Prop) (p : Packet) : Echoes quiet (start p) [] where
  taken := Nat.le_refl 0
  flows := Outbox.empty_flows wire
  flowing _ h := h.2 rfl
  echoing := .unconnected rfl rfl rfl rfl

section

variable {quiet : Prop} {s : Endpoint} {delivered : List Packet} (h : Echoes quiet s delivered)

include h

lemma Echoes.posted_length : s.posted.length ≤ 1 := by
  cases h.echoing with
  | unconnected _ hp => simp [hp]
  | header _ hp => simp [hp]
  | body _ hp => simp [hp]
  | ended _ _ hp => simp [hp]

lemma Echoes.delivered_prefix : delivered.flatMap wire <+: s.consumed := by
  cases h.echoing with
  | unconnected _ _ _ hd => simp [hd]
  | header _ _ hc =>
    exact hc ▸ List.prefix_rfl
  | body _ _ hc =>
    rw [hc]
    exact List.prefix_append _ _
  | ended _ _ _ hc =>
    rw [hc]
    exact List.prefix_append _ _

lemma Echoes.rest_length (hq : quiet) :
    ∃ rest, s.consumed = delivered.flatMap wire ++ rest ∧ rest.length ≤ headerLength := by
  cases h.echoing with
  | unconnected _ _ ht hd => exact ⟨[], by simp [consumed, ht, hd], Nat.zero_le _⟩
  | header _ _ hc => exact ⟨[], by rw [hc, List.append_nil], Nat.zero_le _⟩
  | body _ _ hc => exact ⟨_, hc, List.length_take_le _ _⟩
  | ended rest _ _ hc hr => exact ⟨rest, hc, hr hq⟩

lemma Echoes.of_outbox {outbox : Outbox Packet UInt8} (hflows : outbox.Flows wire delivered)
    (hflowing : quiet → ¬ outbox.Stalled) : Echoes quiet { s with outbox := outbox } delivered where
  taken := h.taken
  flows := hflows
  flowing := hflowing
  echoing := by
    cases h.echoing with
    | unconnected hn hp ht hd => exact .unconnected hn hp ht hd
    | header hn hp hc => exact .header hn hp hc
    | body hn hp hc => exact .body hn hp hc
    | ended rest hn hp hc hr => exact .ended rest hn hp hc hr

lemma Echoes.arrive (bytes : Bytes) : Echoes quiet { s with arrived := s.arrived ++ bytes } delivered where
  taken := by
    rw [List.length_append]
    exact Nat.le_add_right_of_le h.taken
  flows := h.flows
  flowing := h.flowing
  echoing := by
    have hsame : consumed { s with arrived := s.arrived ++ bytes } = s.consumed :=
      consumed_arrive h.taken bytes
    cases h.echoing with
    | unconnected hn hp ht hd => exact .unconnected hn hp ht hd
    | header hn hp hc => exact .header hn hp (hsame.trans hc)
    | body hn hp hc => exact .body hn hp (hsame.trans hc)
    | ended rest hn hp hc hr => exact .ended rest hn hp (hsame.trans hc) hr

lemma Echoes.opened {ec : Bool} (he : Event.CanOccur s (.opened ec)) :
    ∃ t, step handlers s (.opened ec) = .ok t ∧ Echoes quiet t delivered := by
  cases ec with
  | true =>
    refine ⟨_, rfl, h.taken, h.flows, h.flowing, ?_⟩
    cases h.echoing with
    | unconnected hn hp ht hd => exact .unconnected (by simp [handlers, onAccept, doAccept, hn]) hp ht hd
    | header hn hp hc => exact .header (by simp [handlers, onAccept, doAccept, hn]) hp hc
    | body hn hp hc => exact .body (by simp [handlers, onAccept, doAccept, hn]) hp hc
    | ended rest hn hp hc hr =>
      exact .ended rest (by simp [handlers, onAccept, doAccept, hn]) hp hc hr
  | false =>
    -- the socket is not open, so that nothing has been read from it
    have hno := (he.2 rfl).1
    refine ⟨_, rfl, h.taken, h.flows, h.flowing, ?_⟩
    cases h.echoing with
    | unconnected hn hp ht hd =>
      refine .header (by simp [handlers, onAccept, doAccept, doReadHeader, print]) ?_ ?_
      · simp [handlers, onAccept, doAccept, doReadHeader, print, hp]
      · simp [handlers, onAccept, doAccept, doReadHeader, print, consumed, ht, hd]
    | header hn => rw [hno] at hn; cases hn
    | body hn => rw [hno] at hn; cases hn
    | ended _ hn => rw [hno] at hn; cases hn

end

lemma decodeHeader_data (p : Packet) : p.decodeHeader.1.data = p.data := by
  simp only [decodeHeader]
  split
  · split
    · rfl
    · rfl
  · split
    · rfl
    · rfl

lemma store_header {p : Packet} {bytes : Bytes} (h : bytes.length = headerLength) :
    (p.store 0 bytes).data.take headerLength = bytes := by
  rw [← h, store_take (by omega)]

lemma store_body_wire {p : Packet} {bytes : Bytes} (h : bytes.length = p.bodyLength) :
    (p.store headerLength bytes).wire = p.data.take headerLength ++ bytes := by
  have hdata := p.data_length
  have hle := p.bodyLength_le
  rw [wire, length]
  change (fill p.data headerLength bytes).take (headerLength + p.bodyLength) = _
  rw [← h, fill_take (by omega)]

lemma take_length_of_canOccur {s : Endpoint} {n : ℕ} (h : s.taken + n ≤ s.arrived.length) :
    ((s.arrived.drop s.taken).take n).length = n := by
  rw [List.length_take, List.length_drop]
  omega

def Printable (p : Packet) : Prop := (0 ≤ p.type ∧ p.type < 4) ∧ 0 ∈ p.body

lemma report_eq_ok {p : Packet} : (∃ text, report p = .ok text) ↔ Printable p := by
  have htype : (∃ type, typeString p = .ok type) ↔ 0 ≤ p.type ∧ p.type < 4 := by
    rw [typeString]
    by_cases hn : p.type < 0
    · rw [if_pos hn]
      exact ⟨fun hh => (by obtain ⟨_, he⟩ := hh; cases he), fun hh => absurd hn (not_lt.mpr hh.1)⟩
    · rw [if_neg hn]
      constructor
      · rintro ⟨type, he⟩
        obtain ⟨hlt, -⟩ := List.getElem?_eq_some_iff.mp (fetch_eq_ok.mp he)
        have hfour : packetStrings.length = 4 := rfl
        omega
      · rintro ⟨_, hlt⟩
        have hfour : packetStrings.length = 4 := rfl
        exact ⟨_, fetch_of_getElem? (List.getElem?_eq_getElem (by omega))⟩
  constructor
  · rintro ⟨text, he⟩
    obtain ⟨type, ht, he⟩ := bind_eq_ok.mp he
    obtain ⟨body, hb, -⟩ := bind_eq_ok.mp he
    refine ⟨htype.mp ⟨type, ht⟩, ?_⟩
    rw [cString] at hb
    split at hb
    · assumption
    · cases hb
  · rintro ⟨hp, hb⟩
    obtain ⟨type, ht⟩ := htype.mpr hp
    rw [report, ht, ok_bind, cString, if_pos hb]
    exact ⟨_, rfl⟩

section

variable {s : Endpoint} {outbox : Outbox Packet UInt8}
  (hpush : s.outbox.push Container.writePackets [s.readPacket] = .ok outbox)

include hpush

lemma onRead_body {text : Bytes} (htext : report s.readPacket = .ok text) :
    handlers.onRead false s .body =
      .ok (doReadHeader { s with printed := s.printed ++ [text], outbox := outbox }) := by
  simp only [Handlers.onRead, handlers, onBody, Bool.false_eq_true, if_false, htext, ok_bind,
    print, deliver, hpush]
  rfl

lemma onRead_body_iff :
    (∃ t, handlers.onRead false s .body = .ok t) ↔ Printable s.readPacket := by
  rw [← report_eq_ok]
  constructor
  · rintro ⟨t, ht⟩
    obtain ⟨text, htext, -⟩ := bind_eq_ok.mp ht
    exact ⟨text, htext⟩
  · rintro ⟨text, htext⟩
    exact ⟨_, onRead_body hpush htext⟩

end

section

variable {quiet : Prop} {s : Endpoint} {delivered : List Packet} (h : Echoes quiet s delivered)

include h

lemma Echoes.readHeader {ec : Bool} {n : ℕ} (hp : s.posted = [.header])
    (he : Event.CanOccur s (.read ec n)) (hfail : quiet → ec = false) :
    ∃ t, step handlers s (.read ec n) = .ok t ∧ Echoes quiet t delivered := by
  obtain ⟨r, hr, hn, hlen⟩ := he
  obtain rfl : PendingRead.header = r := by simpa [hp] using hr
  obtain ⟨hc, hconnected⟩ : s.consumed = delivered.flatMap wire ∧ s.connected = true := by
    cases h.echoing with
    | unconnected _ hp' => rw [hp] at hp'; cases hp'
    | header hn _ hc => exact ⟨hc, hn⟩
    | body _ hp' => rw [hp] at hp'; cases hp'
    | ended _ _ hp' => rw [hp] at hp'; cases hp'
  have hbytes := take_length_of_canOccur hn
  have hread : s.arrived.take (s.taken + n) =
      delivered.flatMap wire ++ (s.arrived.drop s.taken).take n := by rw [consumed_add, hc]
  generalize hpacket : s.received .header n = p
  let t : Endpoint := { s with readPacket := p, posted := [], taken := s.taken + n }
  have hstep : step handlers s (.read ec n) = .ok (onHeader id ec t) := by
    rw [step_read handlers hp, hpacket]
    rfl
  refine ⟨_, hstep, ?_⟩
  cases ec with
  | true =>
    refine ⟨hn, h.flows, h.flowing, .ended _ hconnected rfl hread fun hq => ?_⟩
    exact absurd (hfail hq) (by simp)
  | false =>
    have hfive : n = headerLength := hlen
    have hheader : p.data.take headerLength = (s.arrived.drop s.taken).take n := by
      rw [← hpacket]
      exact store_header (hbytes.trans hfive)
    cases ha : p.decodeHeader.2 with
    | true =>
      rw [onHeader_accepted id (s := t) ha]
      refine ⟨hn, h.flows, h.flowing, .body hconnected rfl ?_⟩
      rw [← hheader, ← decodeHeader_data] at hread
      exact hread
    | false =>
      rw [onHeader_refused id (s := t) ha]
      exact ⟨hn, h.flows, h.flowing, .ended _ hconnected rfl hread fun _ => by rw [hbytes, hfive]⟩

lemma Echoes.readBody {ec : Bool} {n : ℕ} (hp : s.posted = [.body])
    (he : Event.CanOccur s (.read ec n)) (hfail : quiet → ec = false) :
    (∀ t, step handlers s (.read ec n) = .ok t → ∃ delivered', Echoes quiet t delivered') ∧
      ((∃ t, step handlers s (.read ec n) = .ok t) ↔ ec = false →
        Printable (s.received .body n)) := by
  obtain ⟨r, hr, hn, hlen⟩ := he
  obtain rfl : PendingRead.body = r := by simpa [hp] using hr
  obtain ⟨hc, hconnected⟩ : s.consumed = delivered.flatMap wire ++
      s.readPacket.data.take headerLength ∧ s.connected = true := by
    cases h.echoing with
    | unconnected _ hp' => rw [hp] at hp'; cases hp'
    | header _ hp' => rw [hp] at hp'; cases hp'
    | body hn _ hc => exact ⟨hc, hn⟩
    | ended _ _ hp' => rw [hp] at hp'; cases hp'
  have hbytes := take_length_of_canOccur hn
  have hread : s.arrived.take (s.taken + n) = delivered.flatMap wire ++
      (s.readPacket.data.take headerLength ++ (s.arrived.drop s.taken).take n) := by
    rw [consumed_add, hc, List.append_assoc]
  rw [step_read handlers hp]
  cases ec with
  | true =>
    refine ⟨fun t ht => ?_, by simp [Handlers.onRead, handlers, onBody]⟩
    obtain rfl := Except.ok.inj ht
    refine ⟨delivered, hn, h.flows, h.flowing, .ended _ hconnected rfl hread fun hq => ?_⟩
    exact absurd (hfail hq) (by simp)
  | false =>
    generalize hpacket : s.received .body n = p
    have hwire : p.wire = s.readPacket.data.take headerLength ++ (s.arrived.drop s.taken).take n := by
      rw [← hpacket]
      exact store_body_wire (hbytes.trans hlen)
    obtain ⟨outbox, hpush, hflows, -, hstalled⟩ :=
      h.flows.push Container.writePackets (List.cons_ne_nil p [])
    let t : Endpoint := { s with readPacket := p, posted := [], taken := s.taken + n }
    have hhandled : (∃ t', handlers.onRead false t .body = .ok t') ↔ Printable p :=
      onRead_body_iff hpush
    refine ⟨fun t' ht' => ?_, hhandled.trans ⟨fun hh _ => hh, fun hh => hh rfl⟩⟩
    obtain ⟨text, htext⟩ := report_eq_ok.mpr (hhandled.mp ⟨t', ht'⟩)
    have hstep : handlers.onRead false t .body = _ := onRead_body hpush htext
    obtain rfl := Except.ok.inj (hstep.symm.trans ht')
    refine ⟨delivered ++ [p], hn, hflows, fun hq => mt hstalled.mp (h.flowing hq), ?_⟩
    refine .header hconnected rfl ?_
    change s.arrived.take (s.taken + n) = _
    rw [hread, List.flatMap_append, List.flatMap_singleton, hwire]

lemma Echoes.step {e : Event} (he : e.CanOccur s) (hown : Own e) (hfail : quiet → ¬ Fails e) :
    (∀ t, Endpoint.step handlers s e = .ok t → ∃ delivered', Echoes quiet t delivered') ∧
      ((∃ t, Endpoint.step handlers s e = .ok t) ↔ ∀ n, e = .read false n → s.posted = [.body] →
        Printable (s.received .body n)) := by
  have total {t : Endpoint} (ht : Endpoint.step handlers s e = .ok t)
      (hd : Echoes quiet t delivered) (hquiet : ∀ n, e = .read false n → s.posted ≠ [.body]) :
      (∀ t, Endpoint.step handlers s e = .ok t → ∃ delivered', Echoes quiet t delivered') ∧
      ((∃ t, Endpoint.step handlers s e = .ok t) ↔ ∀ n, e = .read false n → s.posted = [.body] →
        Printable (s.received .body n)) := by
    refine ⟨fun t' ht' => ⟨delivered, ?_⟩, fun _ n hn hp => absurd hp (hquiet n hn), fun _ => ⟨t, ht⟩⟩
    rw [ht] at ht'
    rwa [← Except.ok.inj ht']
  cases e with
  | write p => exact hown.elim
  | close => exact hown.elim
  | opened ec =>
    obtain ⟨t, ht, hd⟩ := h.opened he
    exact total ht hd (by simp)
  | arrive bytes => exact total rfl (h.arrive bytes) (by simp)
  | transmit i n =>
    obtain ⟨outbox, ht, hflows, -, hstalled⟩ :=
      h.flows.transmit Container.writePackets .writes he.1 n
    refine total (t := { s with outbox := outbox }) ?_ (h.of_outbox hflows fun _ => hstalled) (by simp)
    simp only [Endpoint.step, ht]
    rfl
  | written i ec =>
    obtain ⟨outbox, ht, hflows, -, hstalled⟩ :=
      h.flows.finish Container.writePackets .writes he.1 he.2
    refine total (t := { s with outbox := outbox }) ?_ (h.of_outbox hflows fun hq => ?_) (by simp)
    · simp only [Endpoint.step, ht]
      rfl
    · rw [hstalled]
      exact fun hec => hfail hq hec
  | read ec n =>
    have hok : quiet → ec = false := fun hq => by simpa [Fails] using hfail hq
    have hone := h.posted_length
    obtain ⟨r, hr, -⟩ := id he
    obtain ⟨rs, hrs⟩ := List.head?_eq_some_iff.mp hr
    obtain rfl : rs = [] := by
      rw [hrs, List.length_cons] at hone
      exact List.length_eq_zero_iff.mp (by omega)
    cases r with
    | header =>
      obtain ⟨t, ht, hd⟩ := h.readHeader hrs he hok
      exact total ht hd (fun _ _ => by simp [hrs])
    | body =>
      obtain ⟨hkeep, hiff⟩ := h.readBody hrs he hok
      refine ⟨hkeep, hiff.trans ?_⟩
      simp only [hrs, Event.read.injEq]
      constructor
      · rintro hh m ⟨rfl, rfl⟩ -
        exact hh rfl
      · rintro hh rfl
        exact hh n ⟨rfl, rfl⟩ trivial

end

lemma Reached.echoes {p : Packet} {events : List Event} {s : Endpoint} (h : Reached p events s) :
    ∃ delivered, Echoes (∀ e ∈ events, ¬ Fails e) s delivered := by
  refine Runs.Run.invariant_of_mem
    (P := fun s => ∃ delivered, Echoes (∀ e ∈ events, ¬ Fails e) s delivered) h ?_
    ⟨[], start_echoes _ p⟩
  rintro s t e hmem ⟨delivered, hs⟩ ⟨hcan, hown⟩ he
  exact (hs.step hcan hown (fun hq => hq e hmem)).1 t he

theorem echo_law (p : Packet) (events : List Event) (s : Endpoint) (h : Reached p events s) :
    s.outbox.out <+: s.consumed ∧ s.posted.length ≤ 1 ∧ s.outbox.writes.length ≤ 1 ∧
    ((∀ e ∈ events, ¬ Fails e) → s.outbox.writes = [] →
      ∃ rest, s.consumed = s.outbox.out ++ rest ∧ rest.length ≤ headerLength) ∧
    ∀ e, e.CanOccur s → Own e → ((∃ t, step handlers s e = .ok t) ↔
      ∀ n, e = .read false n → s.posted = [.body] →
        Printable (s.received .body n)) := by
  obtain ⟨delivered, hs⟩ := h.echoes
  refine ⟨hs.flows.out_prefix.trans hs.delivered_prefix, hs.posted_length, hs.flows.writes_length,
    fun hquiet hw => ?_, fun e hcan hown => ?_⟩
  · rw [hs.flows.out_eq_of_flowing (hs.flowing hquiet) hw]
    exact hs.rest_length hquiet
  · have hany : Echoes False s delivered := ⟨hs.taken, hs.flows, False.elim, ?_⟩
    · exact (hany.step hcan hown False.elim).2
    · cases hs.echoing with
      | unconnected hn hp ht hd => exact .unconnected hn hp ht hd
      | header hn hp hc => exact .header hn hp hc
      | body hn hp hc => exact .body hn hp hc
      | ended rest hn hp hc => exact .ended rest hn hp hc False.elim

set_option maxRecDepth 8000 in
theorem echo_law_word :
    ∃ s, Reached (fresh (List.replicate 517 0) List.length_replicate)
      [.opened false, .arrive [48, 48, 48, 50, 49, 97, 0], .read false 5, .read false 2,
      .transmit 0 7, .written 0 false] s ∧
      ∃ rest, s.consumed = s.outbox.out ++ rest ∧ rest.length ≤ headerLength := by
  have h : Reached (fresh (List.replicate 517 0) List.length_replicate)
      [.opened false, .arrive [48, 48, 48, 50, 49, 97, 0], .read false 5,
      .read false 2, .transmit 0 7, .written 0 false] (_ : Endpoint) :=
    .cons ⟨⟨rfl, fun _ => ⟨rfl, rfl⟩⟩, trivial⟩ rfl
      (.cons ⟨trivial, trivial⟩ rfl
      (.cons ⟨⟨.header, rfl, by decide, rfl⟩, trivial⟩ rfl
      (.cons ⟨⟨.body, rfl, by decide +kernel, (if_neg Bool.false_ne_true).mpr (by decide +kernel)⟩,
        trivial⟩ rfl
      (.cons ⟨⟨by decide, rfl, rfl⟩, trivial⟩ rfl
      (.cons ⟨⟨by decide, fun _ => ⟨_, _, rfl, rfl, by decide⟩⟩, trivial⟩ rfl .nil)))))
  exact ⟨_, h, (echo_law _ _ _ h).2.2.2.1 (by simp [Fails]) rfl⟩

end WordModel.ServiceServer
