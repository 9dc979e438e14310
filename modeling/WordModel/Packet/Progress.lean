import WordModel.Packet.Frames

/-! How far an end of a connection has come. What comes out well takes it further, and as long
as it is not idle something can. -/

namespace WordModel.Endpoint

open Checked Decimal Packet

def progress (s : Endpoint) : ℕ :=
  s.outbox.progress + s.arrived.length + (s.taken + if s.posted = [.header] then 1 else 0)

inductive Event.Succeeds : Event → Prop
  | opened : Succeeds (.opened false)
  | read (n : ℕ) : Succeeds (.read false n)
  | transmit (i n : ℕ) : Succeeds (.transmit i n)
  | written (i : ℕ) : Succeeds (.written i false)

def Attached (s : Endpoint) : Prop := s.closed = false ∧ (s.connected = true ∨ s.opening = true)

/-- Handlers that go on reading whenever they are told of no failure -/
structure Handlers.Steady (h : Handlers) : Prop where
  opened s : ∃ opening printed, h.onOpen false s =
    { s.doReadHeader with opening := opening, printed := printed }
  header : ∃ refuse, h.onHeader = Endpoint.onHeader refuse
  body s t : h.onBody false s = .ok t → ∃ outbox printed, s.outbox.progress ≤ outbox.progress ∧
    t = { s.doReadHeader with outbox := outbox, printed := printed }
  written s : h.onWritten false s = s

lemma wire_length_ge (p : Packet) : 2 ≤ p.wire.length := by
  have hdata := p.data_length
  have hle := p.bodyLength_le
  have hfive : headerLength = 5 := rfl
  rw [wire, List.length_take, hdata, length]
  omega

section

variable {h : Handlers} (hh : h.Steady) {s t : Endpoint}

lemma transmit_further {i n : ℕ} (ht : step h s (.transmit i n) = .ok t) :
    (t = s ∨ s.progress < t.progress) ∧ (s.Attached → t.Attached) := by
  obtain ⟨outbox, ho, ht⟩ := bind_eq_ok.mp ht
  obtain rfl := Except.ok.inj ht
  obtain ⟨⟨hqueue, hpopped⟩, hout⟩ := Outbox.progress_transmit ho
  refine ⟨?_, id⟩
  rcases hout with rfl | hlt
  · exact Or.inl rfl
  · right
    simp only [progress, Outbox.progress, hqueue, hpopped]
    omega

include hh

lemma written_further {i : ℕ} (ht : step h s (.written i false) = .ok t) :
    s.progress < t.progress ∧ (s.Attached → t.Attached) := by
  obtain ⟨outbox, ho, ht⟩ := bind_eq_ok.mp ht
  obtain rfl := (Except.ok.inj ht).symm.trans (hh.written _)
  refine ⟨?_, id⟩
  simp only [progress, Outbox.progress_finish ho]
  omega

variable {frames : List (PacketType × Bytes)} {k : ℕ} (hk : Reads True frames s k)

include hk

lemma Reads.opened_further (he : Event.CanOccur s (.opened false))
    (ht : step h s (.opened false) = .ok t) :
    s.progress < t.progress ∧ t.connected = true ∧ (s.Attached → t.Attached) := by
  obtain ⟨hp, -, -⟩ := hk.open_next (he.2 rfl).1
  obtain ⟨opening, printed, hopened⟩ :=
    hh.opened { s with opening := false, connected := s.connected || !false }
  obtain rfl := (Except.ok.inj ht).symm.trans hopened
  refine ⟨?_, Bool.or_true _, fun ha => ⟨ha.1, Or.inl (Bool.or_true _)⟩⟩
  simp [progress, doReadHeader, hp]

lemma Reads.read_further (hsend : ∀ q ∈ frames, q.2.length ≤ maxBodyLength) {n : ℕ}
    (he : Event.CanOccur s (.read false n)) (ht : step h s (.read false n) = .ok t) :
    s.progress < t.progress ∧ (s.Attached → t.Attached) := by
  obtain ⟨r, hrs, -, -⟩ := hk.of_read he
  rw [step_read h hrs] at ht
  cases r with
  | header =>
    obtain ⟨haccepted, -⟩ := hk.header_next hsend hrs he
    obtain ⟨refuse, hrefuse⟩ := hh.header
    obtain ⟨r, hr, -, hn⟩ := he
    obtain rfl : PendingRead.header = r := by simpa [hrs] using hr
    have hfive : n = 5 := hn
    generalize s.received .header n = p at haccepted ht
    let m : Endpoint := { s with readPacket := p, posted := [], taken := s.taken + n }
    have hread : h.onRead false m .header =
        .ok (doReadBody { m with readPacket := p.decodeHeader.1 }) := by
      rw [Handlers.onRead, hrefuse]
      exact congrArg Except.ok (onHeader_accepted refuse (s := m) haccepted)
    obtain rfl := Except.ok.inj (ht.symm.trans hread)
    refine ⟨?_, id⟩
    simp [progress, doReadBody, hrs, hfive, m]
  | body =>
    obtain ⟨outbox, printed, hle, rfl⟩ := hh.body _ t ht
    refine ⟨?_, id⟩
    simp only [progress, doReadHeader, hrs]
    dsimp only at hle
    simp
    omega

lemma Reads.succeeds (hsend : ∀ q ∈ frames, q.2.length ≤ maxBodyLength) {e : Event}
    (he : e.CanOccur s) (hs : e.Succeeds) (ht : step h s e = .ok t) :
    (t = s ∨ s.progress < t.progress) ∧ (s.Attached → t.Attached) := by
  cases hs with
  | opened =>
    obtain ⟨hlt, -, ha⟩ := hk.opened_further hh he ht
    exact ⟨Or.inr hlt, ha⟩
  | read n =>
    obtain ⟨hlt, ha⟩ := hk.read_further hh hsend he ht
    exact ⟨Or.inr hlt, ha⟩
  | transmit i n => exact transmit_further ht
  | written i =>
    obtain ⟨hlt, ha⟩ := written_further hh ht
    exact ⟨Or.inr hlt, ha⟩

lemma Reads.goes_on (hsend : ∀ q ∈ frames, q.2.length ≤ maxBodyLength) {pushed : List Packet}
    (hflows : s.outbox.Flows wire pushed) (ha : s.Attached) (hi : ¬ s.Idle) :
    ∃ e : Event, e.CanOccur s ∧ e.Succeeds ∧ ∀ t, step h s e = .ok t → t ≠ s := by
  have further {t : Endpoint} (hlt : s.progress < t.progress) : t ≠ s := by
    rintro rfl
    exact Nat.lt_irrefl _ hlt
  by_cases hc : s.connected = true
  · by_cases hw : s.outbox.writes = []
    · obtain ⟨n, hn⟩ : ∃ n, Event.CanOccur s (.read false n) := by
        by_contra hno
        exact hi ⟨hc, hw, fun n hn => hno ⟨n, hn⟩⟩
      exact ⟨_, hn, .read n, fun t ht => further (hk.read_further hh hsend hn ht).1⟩
    · have hpos : 0 < s.outbox.writes.length := List.length_pos_iff.mpr hw
      rcases hflows.moves hpos with hsent | hmoves
      · exact ⟨.written 0 false, ⟨hpos, fun _ => hsent⟩, .written 0, fun t ht =>
          further (written_further hh ht).1⟩
      · refine ⟨.transmit 0 1, ⟨hpos, hc, ha.1⟩, .transmit 0 1, fun t ht hts => ?_⟩
        obtain ⟨outbox, ho, ht⟩ := bind_eq_ok.mp ht
        refine hmoves ho ?_
        rw [← hts, ← Except.ok.inj ht]
  · have hno : s.connected = false := Bool.eq_false_iff.mpr hc
    have he : Event.CanOccur s (.opened false) := ⟨ha.2.resolve_left hc, fun _ => ⟨hno, ha.1⟩⟩
    refine ⟨_, he, .opened, fun t ht => further (hk.opened_further hh he ht).1⟩

omit hh

lemma Reads.progress_le {pushed : List Packet} (hflows : s.outbox.Flows wire pushed) : s.progress ≤
    2 * (pushed.flatMap wire).length + 2 * (frames.flatMap frame).length + 1 := by
  have hout := hflows.progress_le wire_length_ge
  have harrived := hk.arrived.length_le
  have htaken := hk.taken
  have hone : (if s.posted = [.header] then 1 else 0) ≤ 1 := by
    split <;> omega
  rw [progress]
  omega

end

end WordModel.Endpoint
