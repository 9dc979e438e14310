import WordModel.Packet.Delivery
import WordModel.Server.Service

/-! The model server as a client meets it. It answers what is asked, and as long as it is not
idle it comes further. -/

namespace WordModel

open Checked Decimal Packet Endpoint ModelServer

namespace Service

section

variable {W : Type} (wm : Served W)

def peer (corpus : Option Bytes) : Peer (Fault Sequence) (Service W) Event where
  step := step wm corpus
  CanOccur s e := e.CanOccur s ∧ ∀ bytes, e ≠ .arrive bytes
  Fails := Event.Fails
  arrive s bytes := { s with arrived := s.arrived ++ bytes }
  arrived := arrived
  out := out
  Idle := Idle

def processed (requests : List (PacketType × Bytes)) : List Processed :=
  requests.map (fun q => ((q.1.code : ℤ), q.2))

def Conversing (corpus : Option Bytes) (p : Packet) (w : W) (requests : List (PacketType × Bytes))
    (calm : Prop) (s : Service W) : Prop :=
  (∃ pushed log, Serving wm corpus calm p w s pushed log) ∧
    s.arrived <+: requests.flatMap Endpoint.frame

lemma peer_serves (corpus : Option Bytes) (p : Packet) (w : W) {requests : List (PacketType × Bytes)}
    (hsend : ∀ q ∈ requests, q.2.length ≤ maxBodyLength) (calm : Prop) :
    (peer wm corpus).Serves calm requests (answers wm corpus w (processed requests)).2
      (Conversing wm corpus p w requests calm) where
  step := by
    rintro s e ⟨⟨pushed, log, hs⟩, hrequests⟩ ⟨hcan, harrive⟩ hcalm
    obtain ⟨t, ht, hs', -, hout, harrived⟩ := hs.step hcan hcalm
    have hsame := harrived harrive
    refine ⟨t, ht, ⟨hs', ?_⟩, hsame, hout⟩
    rw [hsame]
    exact hrequests
  arrive := by
    rintro s bytes ⟨⟨pushed, log, hs⟩, -⟩ hb
    exact ⟨⟨⟨pushed, log, hs.arrive bytes⟩, hb⟩, rfl, rfl⟩
  out := by
    rintro s ⟨⟨pushed, log, hs⟩, hrequests⟩
    have hlog := serve_mono ⟨p, .header⟩ ((List.take_prefix s.taken _).trans hrequests)
    rw [serve_frames p hsend] at hlog
    exact hs.out_prefix.trans ((answers_mono w hlog).flatMap _)
  idle := by
    rintro s ⟨⟨pushed, log, hs⟩, -⟩ hc hi hall
    have hout := (hs.idle hc hi).1
    have harrived : s.arrived = requests.flatMap Endpoint.frame := hall
    rw [harrived, serve_frames p hsend] at hout
    exact hout

end

variable {W : Type}

def progress (s : Service W) : ℕ :=
  s.outbox.progress + s.arrived.length + (s.taken + if s.reader.reading = .header then 1 else 0)

section

variable {wm : Served W} {corpus : Option Bytes} {s t : Service W}

lemma transmit_further (h : s.sent.length = s.writer.writes.length) {i n : ℕ}
    (ht : step wm corpus s (.transmit i n) = .ok t) : t = s ∨ s.progress < t.progress := by
  obtain ⟨o, ho, ht⟩ := bind_eq_ok.mp ht
  obtain rfl := Except.ok.inj ht
  obtain ⟨-, rfl | hlt⟩ := Outbox.progress_transmit ho
  · left
    have hsent : s.outbox.writes.map (·.sent) = s.sent := (zipWith_transfer h).2
    rw [hsent]
    rfl
  · right
    have hout : s.out.length < o.out.length := hlt
    simp only [progress, Outbox.progress, outbox]
    omega

lemma written_further {i : ℕ} (ht : step wm corpus s (.written i false) = .ok t) :
    s.progress < t.progress := by
  obtain ⟨writer, hwriter, ht⟩ := bind_eq_ok.mp ht
  obtain rfl := Except.ok.inj ht
  obtain ⟨_, -, hwriter⟩ := bind_eq_ok.mp hwriter
  obtain ⟨⟨x, queue⟩, hpop, hwriter⟩ := bind_eq_ok.mp hwriter
  have hqueue : s.writer.writePackets = x :: queue := popFront_eq_ok.mp hpop
  have hfinished : writer.popped = s.writer.popped + 1 ∧ writer.writePackets = queue := by
    dsimp only at hwriter
    split at hwriter
    · obtain ⟨_, _, hwriter⟩ := bind_eq_ok.mp hwriter
      obtain rfl := Except.ok.inj hwriter
      exact ⟨rfl, rfl⟩
    · obtain rfl := Except.ok.inj hwriter
      exact ⟨rfl, rfl⟩
  simp only [progress, Outbox.progress, outbox, hfinished, hqueue, List.length_cons]
  omega

lemma read_further {blank : ℕ → Packet} (ht : step wm corpus s (.read blank) = .ok t) :
    s.progress < t.progress := by
  obtain ⟨writer, hwriter, ht⟩ := bind_eq_ok.mp ht
  obtain rfl := Except.ok.inj ht
  have hgrown : s.writer.popped = writer.popped ∧
      s.writer.writePackets.length ≤ writer.writePackets.length := by
    rcases complete_cases s.reader ((s.arrived.drop s.taken).take s.reader.wanted) with
      hnone | ⟨q, hq⟩
    · rw [hnone] at hwriter
      obtain rfl := Except.ok.inj hwriter
      exact ⟨rfl, Nat.le_refl _⟩
    · obtain ⟨ps, hps, -⟩ := processPacket_answer wm q blank corpus s.writer
      rw [hq, List.foldlM_cons, hps] at hwriter
      obtain rfl := Except.ok.inj hwriter
      refine ⟨rfl, ?_⟩
      rw [List.length_append]
      exact Nat.le_add_right _ _
  have hread : (s.taken + if s.reader.reading = .header then 1 else 0) < s.taken + s.reader.wanted +
      if (s.reader.complete ((s.arrived.drop s.taken).take s.reader.wanted)).1.reading = .header
        then 1 else 0 := by
    cases hr : s.reader.reading with
    | header =>
      have hfive : s.reader.wanted = 5 := by rw [ModelServer.wanted, hr]; rfl
      rw [hfive, if_pos rfl]
      omega
    | body =>
      rw [complete_reading hr, if_pos rfl, if_neg (by simp)]
      omega
  simp only [progress, Outbox.progress, outbox, hgrown.1]
  have := hgrown.2
  omega

end

/-- The event changes something, and it is neither a failure nor what comes from the peer. -/
def Event.Goes (wm : Served W) (corpus : Option Bytes) (s : Service W) (e : Event) : Prop :=
  (e.CanOccur s ∧ ∀ bytes, e ≠ .arrive bytes) ∧ ¬ e.Fails ∧
    ∃ t, step wm corpus s e = .ok t ∧ t ≠ s

section

variable {wm : Served W} {corpus : Option Bytes} {p : Packet} {w : W} {s : Service W}
  {pushed : List Packet} {log : List Processed} (hs : Serving wm corpus True p w s pushed log)

include hs

lemma Serving.goes_on (hi : ¬ s.Idle) : ∃ e : Event, e.CanOccur s ∧ (∀ bytes, e ≠ .arrive bytes) ∧
    ¬ e.Fails ∧ ∀ t, Service.step wm corpus s e = .ok t → t ≠ s := by
  have further {t : Service W} (hlt : s.progress < t.progress) : t ≠ s := by
    rintro rfl
    exact Nat.lt_irrefl _ hlt
  by_cases hw : s.writer.writes = []
  · have hle : s.taken + s.reader.wanted ≤ s.arrived.length := by
      by_contra hlt
      exact hi ⟨hw, hlt⟩
    exact ⟨.read fun _ => p, ⟨hs.going trivial, hle⟩, fun _ => Event.noConfusion, id, fun t ht =>
      further (read_further ht)⟩
  · have hpos : 0 < s.writer.writes.length := List.length_pos_iff.mpr hw
    have hlen : 0 < s.outbox.writes.length := by
      obtain ⟨m, x, rest, -, hwrites, hsent, -⟩ := writes_eq hs.aligned hs.flows hpos
      simp [outbox, hwrites, hsent]
    rcases hs.flows.moves hlen with hsent | hmoves
    · exact ⟨.written 0 false, ⟨hpos, fun _ => hsent⟩, fun _ => Event.noConfusion,
        Bool.false_ne_true, fun t ht => further (written_further ht)⟩
    · refine ⟨.transmit 0 1, hpos, fun _ => Event.noConfusion, id, fun t ht hts => ?_⟩
      obtain ⟨o, ho, ht⟩ := bind_eq_ok.mp ht
      have hlt : s.out.length < o.out.length :=
        (Outbox.progress_transmit ho).2.resolve_left (hmoves ho)
      have hout : o.out = s.out := congrArg Service.out ((Except.ok.inj ht).trans hts)
      exact Nat.ne_of_lt hlt (congrArg List.length hout.symm)

lemma Serving.progress_le : s.progress ≤
    2 * ((answers wm corpus w (serve ⟨p, .header⟩ s.arrived).2.2).2.flatMap Endpoint.frame).length +
      2 * s.arrived.length + 1 := by
  have hout := hs.flows.progress_le wire_length_ge
  have hlog := hs.processed.trans (serve_mono ⟨p, .header⟩ (List.take_prefix s.taken s.arrived))
  have hpushed : ((answers wm corpus w log).2.flatMap Endpoint.frame).length ≤ _ :=
    ((answers_mono w hlog).flatMap _).length_le
  rw [← hs.pushed] at hpushed
  have htaken := hs.taken
  have hone : (if s.reader.reading = .header then 1 else 0) ≤ 1 := by
    split <;> omega
  rw [progress]
  omega

lemma Serving.further {t : Service W} {e : Event} (harrive : ∀ bytes, e ≠ .arrive bytes)
    (hfail : ¬ e.Fails) (ht : Service.step wm corpus s e = .ok t) :
    t = s ∨ s.progress < t.progress := by
  cases e with
  | arrive bytes => exact (harrive bytes rfl).elim
  | read blank => exact Or.inr (read_further ht)
  | readFailed n => exact (hfail trivial).elim
  | transmit i n => exact transmit_further hs.aligned ht
  | written i ec =>
    obtain rfl : ec = false := by simpa [Event.Fails] using hfail
    exact Or.inr (written_further ht)

lemma Serving.goes {t : Service W} {e : Event} (he : e.Goes wm corpus s)
    (ht : Service.step wm corpus s e = .ok t) :
    (∃ pushed log, Serving wm corpus True p w t pushed log) ∧ t.arrived = s.arrived ∧
      s.progress < t.progress := by
  obtain ⟨⟨hcan, harrive⟩, hfail, u, hu, hne⟩ := he
  obtain rfl := Except.ok.inj (ht.symm.trans hu)
  obtain ⟨u, hu, hserving, -, -, harrived⟩ := hs.step hcan fun _ => hfail
  obtain rfl := Except.ok.inj (ht.symm.trans hu)
  exact ⟨hserving, harrived harrive, (hs.further harrive hfail ht).resolve_left hne⟩

lemma Serving.going_run {events : List Event} {t : Service W}
    (h : Runs.Run (Service.step wm corpus) (fun s e => e.Goes wm corpus s) s events t) :
    (∃ pushed log, Serving wm corpus True p w t pushed log) ∧ t.arrived = s.arrived ∧
      events.length ≤ 2 * ((answers wm corpus w
        (serve ⟨p, .header⟩ s.arrived).2.2).2.flatMap Endpoint.frame).length +
          2 * s.arrived.length + 1 := by
  obtain ⟨⟨hserving, harrived⟩, hlength⟩ := h.length_add_le (f := progress)
    (P := fun t => (∃ pushed log, Serving wm corpus True p w t pushed log) ∧ t.arrived = s.arrived)
    (fun t e u ht he hu => by
      obtain ⟨⟨_, _, ht⟩, hsame⟩ := ht
      obtain ⟨hserving, harrived, hlt⟩ := ht.goes he hu
      exact ⟨⟨hserving, harrived.trans hsame⟩, hlt⟩) ⟨⟨pushed, log, hs⟩, rfl⟩
  refine ⟨hserving, harrived, ?_⟩
  obtain ⟨_, _, ht⟩ := hserving
  have hle := ht.progress_le
  rw [harrived] at hle
  exact Nat.le_of_add_right_le (hlength.trans hle)

lemma Serving.exists_idle : ∃ events t, Runs.Run (Service.step wm corpus)
    (fun s e => (e.CanOccur s ∧ ∀ bytes, e ≠ .arrive bytes) ∧ ¬ e.Fails) s events t ∧
      t.arrived = s.arrived ∧ t.Idle := by
  obtain ⟨events, t, h, hstuck⟩ : ∃ events t,
      Runs.Run (Service.step wm corpus) (fun s e => e.Goes wm corpus s) s events t ∧
        ∀ e, ¬ Event.Goes wm corpus t e :=
    Runs.Run.exists_stuck (fun events t h => (hs.going_run h).2.2) (fun t e ⟨_, _, u, hu, _⟩ => ⟨u, hu⟩)
  obtain ⟨⟨_, _, ht⟩, hsame, -⟩ := hs.going_run h
  refine ⟨events, t, h.mono fun t e he => ⟨he.1, he.2.1⟩, hsame, ?_⟩
  by_contra hi
  obtain ⟨e, hcan, harrive, hfail, hne⟩ := ht.goes_on hi
  obtain ⟨u, hu, -⟩ := ht.step hcan fun _ => hfail
  exact hstuck e ⟨⟨hcan, harrive⟩, hfail, u, hu, hne u hu⟩

end

lemma live (wm : Served W) (corpus : Option Bytes) (p : Packet) (w : W)
    {requests : List (PacketType × Bytes)} (hsend : ∀ q ∈ requests, q.2.length ≤ maxBodyLength) :
    (peer wm corpus).Live progress
      (2 * ((answers wm corpus w (processed requests)).2.flatMap Endpoint.frame).length +
        2 * (requests.flatMap Endpoint.frame).length + 1)
      (Conversing wm corpus p w requests True) where
  step := by
    rintro s e t ⟨⟨pushed, log, hs⟩, -⟩ ⟨-, harrive⟩ hfail ht
    exact hs.further harrive hfail ht
  arrive s bytes := by
    change s.outbox.progress + (s.arrived ++ bytes).length +
      (s.taken + if s.reader.reading = .header then 1 else 0) = _
    rw [List.length_append, progress]
    omega
  arrive_nil s := by simp [peer]
  le := by
    rintro s ⟨⟨pushed, log, hs⟩, harrived⟩
    have hlog := serve_mono ⟨p, .header⟩ harrived
    rw [serve_frames p hsend] at hlog
    have hanswers : ((answers wm corpus w _).2.flatMap Endpoint.frame).length ≤ _ :=
      ((answers_mono w hlog).flatMap _).length_le
    have hlength := harrived.length_le
    have hprogress := hs.progress_le
    rw [processed]
    omega
  goes_on := by
    rintro s ⟨⟨pushed, log, hs⟩, -⟩ hi
    obtain ⟨e, hcan, harrive, hfail, hne⟩ := hs.goes_on hi
    exact ⟨e, ⟨hcan, harrive⟩, hfail, hne⟩

end Service

end WordModel
