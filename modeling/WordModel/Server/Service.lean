import WordModel.Library.Outbox
import WordModel.NodeJs.Replies
import WordModel.NodeJs.Summary
import WordModel.Packet.Frames

/-! The model server of one connection: its reads, its replies and its writes together. What it
sends depends on nothing but what it has been sent. -/

namespace WordModel.ModelServer

open Checked Decimal Packet Writer

section Answers

variable {W : Type} (wm : Served W) (corpus : Option Bytes)

/-- The packets that go back for what was read, and the model after it -/
def answer (w : W) (p : Processed) : W × List (PacketType × Bytes) :=
  if p.1 = PacketType.predict.code then
    let r := wm.getPrediction (p.2.foldl wm.putc w)
    (r.1, if 0 < r.2.length then [(.prediction, (r.2 ++ [0]).take maxBodyLength)] else [])
  else if p.1 = PacketType.train.code then
    let w := NodeJs.trained wm corpus w
    (w, [(.train, NodeJs.mistakesText (wm.trainingMistakes w))])
  else if p.1 = PacketType.summary.code then
    let r := wm.writeSummary w
    (r.1, (summaryBodies r.2).map (fun body => (.summary, body)))
  else (w, [])

def answers : W → List Processed → W × List (PacketType × Bytes)
  | w, [] => (w, [])
  | w, p :: ps => ((answers (answer wm corpus w p).1 ps).1,
      (answer wm corpus w p).2 ++ (answers (answer wm corpus w p).1 ps).2)

variable {wm corpus}

lemma answers_append (w : W) (ps qs : List Processed) : answers wm corpus w (ps ++ qs) =
    ((answers wm corpus (answers wm corpus w ps).1 qs).1,
      (answers wm corpus w ps).2 ++ (answers wm corpus (answers wm corpus w ps).1 qs).2) := by
  induction ps generalizing w with
  | nil => rfl
  | cons p ps ih => rw [List.cons_append, answers, ih, answers, List.append_assoc]

lemma answers_concat (w : W) (ps : List Processed) (p : Processed) :
    answers wm corpus w (ps ++ [p]) = ((answer wm corpus (answers wm corpus w ps).1 p).1,
      (answers wm corpus w ps).2 ++ (answer wm corpus (answers wm corpus w ps).1 p).2) := by
  rw [answers_append, answers, answers, List.append_nil]

lemma answers_mono (w : W) {ps qs : List Processed} (h : ps <+: qs) :
    (answers wm corpus w ps).2 <+: (answers wm corpus w qs).2 := by
  obtain ⟨rest, rfl⟩ := h
  rw [answers_append]
  exact List.prefix_append _ _

end Answers

lemma encodeHeader_frame {p : Packet} {type : PacketType} {body : Bytes} (htype : p.type = type.code)
    (hlength : p.bodyLength = body.length) (hbody : p.body.take p.bodyLength = body) :
    p.encodeHeader.wire = Endpoint.frame (type, body) := by
  have hset : p.setType type = p := by
    cases p
    rw [setType, ← htype]
  have hwire := encodeHeader_wire p type
  rw [hset, hbody, hlength] at hwire
  exact hwire

lemma predictionPacket_frame (p : Packet) (prediction : Bytes) : (predictionPacket p prediction).wire =
    Endpoint.frame (.prediction, (prediction ++ [0]).take maxBodyLength) := by
  have hmax : maxBodyLength = 512 := rfl
  have hlength : ((p.setBodyLength (prediction.length + 1)).setType .prediction).bodyLength =
      ((prediction ++ [0]).take maxBodyLength).length := by
    rw [List.length_take, List.length_append, List.length_singleton]
    change (if maxBodyLength < prediction.length + 1 then maxBodyLength else prediction.length + 1) = _
    split
    · omega
    · omega
  have htake : (prediction ++ [0]).take ((prediction ++ [0]).take maxBodyLength).length =
      (prediction ++ [0]).take maxBodyLength := by
    rw [List.length_take, List.take_eq_take_iff]
    omega
  rw [predictionPacket, hlength, htake]
  exact encodeHeader_frame rfl hlength (hlength ▸ store_body (List.length_take_le _ _))

lemma summaryPackets_frames (blank : ℕ → Packet) (ss : Bytes) :
    (summaryPackets blank ss).flatMap wire =
      ((summaryBodies ss).map (fun body => (PacketType.summary, body))).flatMap Endpoint.frame := by
  have hfits := fun body hbody => (NodeJs.summaryBodies_bounds ss body hbody).2
  rw [summaryPackets]
  generalize summaryBodies ss = bodies at hfits
  induction bodies generalizing blank with
  | nil => rfl
  | cons body bodies ih =>
    obtain ⟨hbody, hbodies⟩ := List.forall_mem_cons.mp hfits
    have hrest := ih (fun k => blank (k + 1)) hbodies
    rw [List.mapIdx_cons, List.flatMap_cons, compose_wire _ _ hbody, hrest, List.map_cons,
      List.flatMap_cons]
    rfl

lemma processPacket_answer {W : Type} (wm : Served W) (p : Processed) (blank : ℕ → Packet)
    (corpus : Option Bytes) (s : Writer W) : ∃ ps, processPacket wm p blank corpus s =
      .ok { s with
        wm := (answer wm corpus s.wm p).1
        writePackets := s.writePackets ++ ps
        writes := s.writes ++ if s.writePackets = [] ∧ ps ≠ [] then [s.popped] else [] } ∧
      ps.flatMap wire = (answer wm corpus s.wm p).2.flatMap Endpoint.frame := by
  have pushing (w : W) {ps : List Packet} (h : ps ≠ []) :
      ({ s with wm := w } : Writer W).push ps = .ok { s with
        wm := w
        writePackets := s.writePackets ++ ps
        writes := s.writes ++ if s.writePackets = [] ∧ ps ≠ [] then [s.popped] else [] } := by
    rw [push_eq _ h]
    simp [h]
  rw [processPacket, answer]
  by_cases hpredict : p.1 = PacketType.predict.code
  · rw [if_pos hpredict, if_pos hpredict, sendPrediction]
    dsimp only
    by_cases hsome : 0 < (wm.getPrediction (p.2.foldl wm.putc s.wm)).2.length
    · rw [if_pos hsome, if_pos hsome]
      refine ⟨_, pushing _ (List.cons_ne_nil _ []), ?_⟩
      rw [List.flatMap_singleton, List.flatMap_singleton, predictionPacket_frame]
    · rw [if_neg hsome, if_neg hsome]
      exact ⟨[], by simp, rfl⟩
  · rw [if_neg hpredict, if_neg hpredict]
    by_cases htrain : p.1 = PacketType.train.code
    · rw [if_pos htrain, if_pos htrain]
      refine ⟨_, pushing (NodeJs.trained wm corpus s.wm) (List.cons_ne_nil _ []), ?_⟩
      rw [List.flatMap_singleton, List.flatMap_singleton, NodeJs.trainPacket_wire]
      rfl
    · rw [if_neg htrain, if_neg htrain]
      by_cases hsummary : p.1 = PacketType.summary.code
      · rw [if_pos hsummary, if_pos hsummary]
        refine ⟨_, pushing _ ?_, summaryPackets_frames blank _⟩
        rw [summaryPackets, ne_eq, List.mapIdx_eq_nil_iff]
        exact summaryBodies_ne_nil _
      · rw [if_neg hsummary, if_neg hsummary]
        exact ⟨[], by simp, rfl⟩

lemma serve_of_le {s : ModelServer} {stream : Bytes} (h : s.wanted ≤ stream.length) :
    serve s stream =
      ((serve (s.complete (stream.take s.wanted)).1 (stream.drop s.wanted)).1,
        (serve (s.complete (stream.take s.wanted)).1 (stream.drop s.wanted)).2.1,
        (s.complete (stream.take s.wanted)).2 ++
          (serve (s.complete (stream.take s.wanted)).1 (stream.drop s.wanted)).2.2) := by
  rw [serve, if_pos h]

lemma serve_of_lt {s : ModelServer} {stream : Bytes} (h : ¬ s.wanted ≤ stream.length) :
    serve s stream = (s, stream, []) := by rw [serve, if_neg h]

lemma serve_append_rest (s : ModelServer) (xs ys : Bytes) : serve s (xs ++ ys) =
    ((serve (serve s xs).1 ((serve s xs).2.1 ++ ys)).1,
      (serve (serve s xs).1 ((serve s xs).2.1 ++ ys)).2.1,
      (serve s xs).2.2 ++ (serve (serve s xs).1 ((serve s xs).2.1 ++ ys)).2.2) := by
  induction s, xs using serve.induct with
  | case1 s xs hle r ih =>
    have hsplit : xs ++ ys = xs.take s.wanted ++ (xs.drop s.wanted ++ ys) := by
      rw [← List.append_assoc, List.take_append_drop]
    rw [hsplit, serve_append (List.length_take_of_le hle), ih, serve_of_le hle, List.append_assoc]
  | case2 s xs hlt =>
    rw [serve_of_lt hlt]
    rfl

lemma serve_resume {r s : ModelServer} {xs ys : Bytes} {log : List Processed}
    (h : serve r xs = ((serve s ys).1, (serve s ys).2.1, log ++ (serve s ys).2.2)) (zs : Bytes) :
    serve r (xs ++ zs) =
      ((serve s (ys ++ zs)).1, (serve s (ys ++ zs)).2.1, log ++ (serve s (ys ++ zs)).2.2) := by
  rw [serve_append_rest, h, serve_append_rest s, List.append_assoc]

lemma serve_mono (s : ModelServer) {xs ys : Bytes} (h : xs <+: ys) :
    (serve s xs).2.2 <+: (serve s ys).2.2 := by
  obtain ⟨zs, rfl⟩ := h
  rw [serve_append_rest]
  exact List.prefix_append _ _

lemma serve_frames (p : Packet) {frames : List (PacketType × Bytes)}
    (h : ∀ q ∈ frames, q.2.length ≤ maxBodyLength) :
    (serve ⟨p, .header⟩ (frames.flatMap Endpoint.frame)).2.2 =
      frames.map (fun q => ((q.1.code : ℤ), q.2)) := by
  induction frames generalizing p with
  | nil =>
    have hnone : ¬ wanted ⟨p, .header⟩ ≤ ([] : Bytes).length := Nat.not_succ_le_zero 4
    rw [List.flatMap_nil, serve_of_lt hnone]
    rfl
  | cons q frames ih =>
    obtain ⟨hq, hframes⟩ := List.forall_mem_cons.mp h
    obtain ⟨p', hp'⟩ := serve_packet p q.1 hq (frames.flatMap Endpoint.frame)
    rw [List.flatMap_cons, Endpoint.frame, hp', ih p' hframes]
    rfl

end WordModel.ModelServer

namespace WordModel

open Checked Decimal Packet ModelServer

-- `sent` says of each outstanding write how much of its packet has gone out.
structure Service (W : Type) where
  reader : ModelServer
  writer : Writer W
  sent : List ℕ
  out : Bytes
  arrived : Bytes
  taken : ℕ
  ended : Bool

namespace Service

variable {W : Type}

def start (p : Packet) (w : W) : Service W := ⟨⟨p, .header⟩, Writer.start w, [], [], [], 0, false⟩

def outbox (s : Service W) : Outbox Packet UInt8 :=
  ⟨s.writer.writePackets, s.writer.popped, List.zipWith Transfer.mk s.writer.writes s.sent, s.out⟩

def started (sent : List ℕ) (writer : Writer W) : List ℕ :=
  sent ++ List.replicate (writer.writes.length - sent.length) 0

def failRead (s : ModelServer) (bytes : Bytes) : ModelServer :=
  match s.reading with
  | .header => onHeader true (s.readPacket.store 0 bytes)
  | .body => (onBody true (s.readPacket.store headerLength bytes)).1

inductive Event where
  | arrive (bytes : Bytes)
  /-- What is read is as much as was asked for. -/
  | read (blank : ℕ → Packet)
  | readFailed (n : ℕ)
  | transmit (i n : ℕ)
  | written (i : ℕ) (ec : Bool)

section

variable (wm : Served W) (corpus : Option Bytes)

def step (s : Service W) : Event → Exec Sequence (Service W)
  | .arrive bytes => .ok { s with arrived := s.arrived ++ bytes }
  | .read blank => do
    let r := s.reader.complete ((s.arrived.drop s.taken).take s.reader.wanted)
    let writer ← r.2.foldlM (fun w p => Writer.processPacket wm p blank corpus w) s.writer
    return { s with
      reader := r.1
      writer := writer
      sent := started s.sent writer
      taken := s.taken + s.reader.wanted }
  | .readFailed n => .ok { s with
      reader := failRead s.reader ((s.arrived.drop s.taken).take n)
      taken := s.taken + n
      ended := true }
  | .transmit i n => do
    let o ← s.outbox.transmit wire .writePackets .writes i n
    return { s with sent := o.writes.map (·.sent), out := o.out }
  | .written i ec => do
    let writer ← Writer.step wm s.writer (.written i ec)
    return { s with writer := writer, sent := started (s.sent.eraseIdx i) writer }

def Event.CanOccur (s : Service W) : Event → Prop
  | .arrive _ => True
  | .read _ => s.ended = false ∧ s.taken + s.reader.wanted ≤ s.arrived.length
  | .readFailed n => n < s.reader.wanted ∧ s.taken + n ≤ s.arrived.length
  | .transmit i _ => i < s.writer.writes.length
  | .written i ec => i < s.writer.writes.length ∧ (ec = false → s.outbox.Sent wire i)

def Event.Fails : Event → Prop
  | .readFailed _ => True
  | .written _ ec => ec = true
  | _ => False

def Idle (s : Service W) : Prop :=
  s.writer.writes = [] ∧ ¬ s.taken + s.reader.wanted ≤ s.arrived.length

abbrev Reached (p : Packet) (w : W) (events : List Event) (s : Service W) : Prop :=
  Runs.Run (step wm corpus) (fun s e => e.CanOccur s) (start p w) events s

/-- What has been processed is what `serve` makes of the bytes that were read, and what has
been pushed are the answers to it. -/
structure Serving (calm : Prop) (p : Packet) (w : W) (s : Service W) (pushed : List Packet)
    (log : List Processed) : Prop where
  aligned : s.sent.length = s.writer.writes.length
  flows : s.outbox.Flows wire pushed
  flowing : calm → ¬ s.outbox.Stalled
  pushed : pushed.flatMap wire = (answers wm corpus w log).2.flatMap Endpoint.frame
  model : s.writer.wm = (answers wm corpus w log).1
  taken : s.taken ≤ s.arrived.length
  processed : log <+: (serve ⟨p, .header⟩ (s.arrived.take s.taken)).2.2
  reading : s.ended = false → serve ⟨p, .header⟩ (s.arrived.take s.taken) =
    ((serve s.reader []).1, (serve s.reader []).2.1, log ++ (serve s.reader []).2.2)
  going : calm → s.ended = false

end

lemma zipWith_transfer {writes sent : List ℕ} (h : sent.length = writes.length) :
    (List.zipWith Transfer.mk writes sent).map (·.address) = writes ∧
      (List.zipWith Transfer.mk writes sent).map (·.sent) = sent := by
  induction writes generalizing sent with
  | nil =>
    obtain rfl := List.length_eq_zero_iff.mp h
    exact ⟨rfl, rfl⟩
  | cons a writes ih =>
    cases sent with
    | nil => cases h
    | cons n sent =>
      obtain ⟨haddress, hsent⟩ := ih (Nat.succ.inj h)
      simp [haddress, hsent]

lemma started_of_length {sent : List ℕ} {writer : Writer W} (h : sent.length = writer.writes.length) :
    started sent writer = sent := by
  rw [started, h, Nat.sub_self, List.replicate_zero, List.append_nil]

lemma started_concat {sent : List ℕ} {writer : Writer W}
    (h : sent.length + 1 = writer.writes.length) : started sent writer = sent ++ [0] := by
  rw [started, ← h, Nat.add_sub_cancel_left, List.replicate_one]

lemma outbox_pushed {s : Service W} (h : s.sent.length = s.writer.writes.length) (w : W)
    {ps : List Packet} {pushed : List Packet} (hflows : s.outbox.Flows wire pushed)
    {writer : Writer W} (hwriter : writer = { s.writer with
      wm := w
      writePackets := s.writer.writePackets ++ ps
      writes := s.writer.writes ++
        if s.writer.writePackets = [] ∧ ps ≠ [] then [s.writer.popped] else [] }) :
    (started s.sent writer).length = writer.writes.length ∧
      Outbox.Flows wire (outbox { s with writer := writer, sent := started s.sent writer })
        (pushed ++ ps) ∧
      (Outbox.Stalled (outbox { s with writer := writer, sent := started s.sent writer }) ↔
        s.outbox.Stalled) := by
  by_cases hps : ps = []
  · have hwrites : writer.writes = s.writer.writes := by simp [hwriter, hps]
    have hsent := started_of_length (h.trans (congrArg List.length hwrites.symm))
    have hsame : outbox { s with writer := writer, sent := s.sent } = s.outbox := by
      simp [outbox, hwriter, hps]
    rw [hsent, hsame, hps, List.append_nil, hwrites]
    exact ⟨h, hflows, Iff.rfl⟩
  · obtain ⟨o, ho, hflows', -, hstalled⟩ := hflows.push Sequence.writePackets hps
    suffices hsame : (started s.sent writer).length = writer.writes.length ∧
        outbox { s with writer := writer, sent := started s.sent writer } = o by
      rw [hsame.2]
      exact ⟨hsame.1, hflows', hstalled⟩
    by_cases hq : s.writer.writePackets = []
    · have hwrites : writer.writes = s.writer.writes ++ [s.writer.popped] := by
        simp [hwriter, hq, hps]
      have hsent : started s.sent writer = s.sent ++ [0] := started_concat (by
        rw [hwrites, List.length_append, List.length_singleton, h])
      obtain ⟨x, xs, rfl⟩ := List.exists_cons_of_ne_nil hps
      have hpush : s.outbox.push Sequence.writePackets (x :: xs) = .ok
          ⟨x :: xs, s.writer.popped, s.outbox.writes ++ [⟨s.writer.popped, 0⟩], s.out⟩ := by
        simp [Outbox.push, Outbox.write, outbox, hq, fetch]
      rw [hpush, Except.ok.injEq] at ho
      rw [hsent, hwrites, List.length_append, List.length_append, h, ← ho]
      refine ⟨rfl, ?_⟩
      rw [outbox, hwrites, List.zipWith_append h.symm]
      simp [outbox, hwriter, hq]
    · have hwrites : writer.writes = s.writer.writes := by simp [hwriter, hq]
      have hsent := started_of_length (h.trans (congrArg List.length hwrites.symm))
      have hpush : s.outbox.push Sequence.writePackets ps =
          .ok { s.outbox with queue := s.writer.writePackets ++ ps } := by
        simp [Outbox.push, outbox, hq]
      rw [hpush, Except.ok.injEq] at ho
      rw [hsent, hwrites, ← ho]
      refine ⟨h, ?_⟩
      simp [outbox, hwriter, hq]

lemma writes_eq {s : Service W} (h : s.sent.length = s.writer.writes.length) {pushed : List Packet}
    (hflows : s.outbox.Flows wire pushed) {i : ℕ} (hi : i < s.writer.writes.length) :
    ∃ n x rest, i = 0 ∧ s.writer.writes = [s.writer.popped] ∧ s.sent = [n] ∧
      s.writer.writePackets = x :: rest := by
  obtain ⟨haddress, hsent⟩ := zipWith_transfer h
  have hlen : i < s.outbox.writes.length := by
    have hlength := congrArg List.length haddress
    rw [List.length_map] at hlength
    exact hlength ▸ hi
  obtain ⟨_, x, rest, hzero, -, hq, hw, ha, -, -⟩ :=
    hflows.of_write (List.getElem?_eq_getElem hlen)
  have hw' : List.zipWith Transfer.mk s.writer.writes s.sent = [_] := hw
  rw [hw'] at haddress hsent
  exact ⟨_, x, rest, hzero, by rw [← haddress]; exact congrArg (fun a => [a]) ha, hsent.symm, hq⟩

lemma complete_cases (r : ModelServer) (bytes : Bytes) :
    (r.complete bytes).2 = [] ∨ ∃ q, (r.complete bytes).2 = [q] := by
  rw [complete]
  cases r.reading with
  | header => exact Or.inl rfl
  | body => exact Or.inr ⟨_, rfl⟩

section

variable {wm : Served W} {corpus : Option Bytes} {calm : Prop} {p : Packet} {w : W} {s : Service W}
  {pushed : List Packet} {log : List Processed} (h : Serving wm corpus calm p w s pushed log)

include h

lemma Serving.of_outbox {writer : Writer W} {sent : List ℕ} {out : Bytes}
    (haligned : sent.length = writer.writes.length) (hwm : writer.wm = s.writer.wm)
    {o : Outbox Packet UInt8} (ho : outbox { s with writer := writer, sent := sent, out := out } = o)
    (hflows : o.Flows wire pushed) (hflowing : calm → ¬ o.Stalled) :
    Serving wm corpus calm p w { s with writer := writer, sent := sent, out := out } pushed log where
  aligned := haligned
  flows := ho ▸ hflows
  flowing := ho ▸ hflowing
  pushed := h.pushed
  model := hwm.trans h.model
  taken := h.taken
  processed := h.processed
  reading := h.reading
  going := h.going

lemma Serving.transmit {i n : ℕ} (hi : i < s.writer.writes.length) :
    ∃ t, Service.step wm corpus s (.transmit i n) = .ok t ∧
      Serving wm corpus calm p w t pushed log ∧ t.arrived = s.arrived ∧ s.out <+: t.out := by
  obtain ⟨m, x, rest, rfl, hwrites, hsent, hq⟩ := writes_eq h.aligned h.flows hi
  have hlen : 0 < s.outbox.writes.length := by simp [outbox, hwrites, hsent]
  obtain ⟨o, ho, hflows, hout, hstalled⟩ :=
    h.flows.transmit Sequence.writePackets .writes hlen n
  have hsame : o = ⟨s.writer.writePackets, s.writer.popped, [⟨s.writer.popped,
      m + (((x.wire).drop m).take n).length⟩], s.out ++ ((x.wire).drop m).take n⟩ := by
    simp only [Outbox.transmit, outbox, hwrites, hsent, hq, fetch, List.zipWith_cons_cons,
      List.zipWith_nil_left, List.getElem?_cons_zero, ok_bind, Nat.lt_irrefl, if_false,
      Nat.sub_self, pure_eq_ok, Except.ok.injEq, List.set_cons_zero] at ho
    rw [← ho, hq]
  refine ⟨{ s with sent := o.writes.map (·.sent), out := o.out }, ?_, ?_, rfl, hout⟩
  · rw [Service.step, ho]
    rfl
  · refine h.of_outbox ?_ rfl ?_ hflows fun _ => hstalled
    · rw [hsame, hwrites]
      rfl
    · rw [hsame, outbox, hwrites]
      rfl

lemma Serving.written {i : ℕ} {ec : Bool} (he : Event.CanOccur s (.written i ec))
    (hcalm : calm → ec = false) :
    ∃ t, Service.step wm corpus s (.written i ec) = .ok t ∧
      Serving wm corpus calm p w t pushed log ∧ t.arrived = s.arrived ∧ s.out <+: t.out := by
  obtain ⟨m, x, rest, rfl, hwrites, hsent, hq⟩ := writes_eq h.aligned h.flows he.1
  have hlen : 0 < s.outbox.writes.length := by simp [outbox, hwrites, hsent]
  obtain ⟨o, ho, hflows, hout, hstalled⟩ :=
    h.flows.finish Sequence.writePackets .writes hlen he.2
  have hflowing : calm → ¬ o.Stalled := fun hc => by simp [hstalled, hcalm hc]
  suffices hwriter : ∃ writer, Writer.step wm s.writer (.written 0 ec) = .ok writer ∧
      (started (s.sent.eraseIdx 0) writer).length = writer.writes.length ∧
      writer.wm = s.writer.wm ∧
      outbox { s with writer := writer, sent := started (s.sent.eraseIdx 0) writer } = o by
    obtain ⟨writer, hstep, haligned, hwm, hsame⟩ := hwriter
    refine ⟨{ s with writer := writer, sent := started (s.sent.eraseIdx 0) writer }, ?_,
      h.of_outbox haligned hwm hsame hflows hflowing, rfl, List.prefix_rfl⟩
    rw [Service.step, hstep]
    rfl
  have hfinish : s.outbox.finish Sequence.writePackets .writes 0 ec = .ok o := ho
  cases ec with
  | true =>
    refine ⟨{ s.writer with writes := [] }, ?_, ?_, rfl, ?_⟩
    · simp [Writer.step, hwrites, fetch, Writer.onWritten]
    · simp [started, hsent]
    · simp only [Outbox.finish, outbox, hwrites, hsent, fetch, Outbox.onWritten] at hfinish
      rw [← Except.ok.inj hfinish]
      simp [outbox, started, hsent]
  | false =>
    cases rest with
    | nil =>
      refine ⟨{ s.writer with writePackets := [], popped := s.writer.popped + 1, writes := [] }, ?_,
        ?_, rfl, ?_⟩
      · simp [Writer.step, hwrites, fetch, Writer.onWritten, hq, popFront]
      · simp [started, hsent]
      · simp [Outbox.finish, outbox, hwrites, hsent, fetch, Outbox.onWritten, hq, popFront] at hfinish
        rw [← hfinish]
        simp [outbox, started, hsent]
    | cons y rest =>
      refine ⟨{ s.writer with
        writePackets := y :: rest
        popped := s.writer.popped + 1
        writes := [s.writer.popped + 1] }, ?_, ?_, rfl, ?_⟩
      · simp [Writer.step, hwrites, fetch, Writer.onWritten, hq, popFront, Writer.write]
      · simp [started, hsent]
      · simp [Outbox.finish, outbox, hwrites, hsent, fetch, Outbox.onWritten, hq, popFront,
          Outbox.write] at hfinish
        rw [← hfinish]
        simp [outbox, started, hsent]

lemma Serving.arrive (bytes : Bytes) :
    Serving wm corpus calm p w { s with arrived := s.arrived ++ bytes } pushed log where
  aligned := h.aligned
  flows := h.flows
  flowing := h.flowing
  pushed := h.pushed
  model := h.model
  taken := by
    rw [List.length_append]
    exact Nat.le_add_right_of_le h.taken
  processed := by
    rw [List.take_append_of_le_length h.taken]
    exact h.processed
  reading hn := by
    rw [List.take_append_of_le_length h.taken]
    exact h.reading hn
  going := h.going

lemma Serving.readFailed {n : ℕ} (he : Event.CanOccur s (.readFailed n)) (hcalm : ¬ calm) :
    ∃ t, Service.step wm corpus s (.readFailed n) = .ok t ∧
      Serving wm corpus calm p w t pushed log ∧ t.arrived = s.arrived ∧ s.out <+: t.out := by
  have hmono := serve_mono ⟨p, .header⟩
    (List.take_prefix_take_left (l := s.arrived) (Nat.le_add_right s.taken n))
  refine ⟨_, rfl, ⟨h.aligned, h.flows, h.flowing, h.pushed, h.model, he.2, h.processed.trans hmono,
    ?_, ?_⟩, rfl, List.prefix_rfl⟩
  · intro hn
    cases hn
  · exact fun hc => (hcalm hc).elim

lemma Serving.read {blank : ℕ → Packet} (he : Event.CanOccur s (.read blank)) :
    ∃ t, Service.step wm corpus s (.read blank) = .ok t ∧ (∃ pushed' log',
      Serving wm corpus calm p w t pushed' log') ∧ t.arrived = s.arrived ∧ s.out <+: t.out := by
  obtain ⟨hgoing, hle⟩ := he
  have hlen : ((s.arrived.drop s.taken).take s.reader.wanted).length = s.reader.wanted := by
    rw [List.length_take, List.length_drop]
    omega
  have hread := serve_resume (h.reading hgoing) ((s.arrived.drop s.taken).take s.reader.wanted)
  rw [List.nil_append, serve_of_le (Nat.le_of_eq hlen.symm), List.take_of_length_le (Nat.le_of_eq hlen),
    List.drop_of_length_le (Nat.le_of_eq hlen), ← List.take_add] at hread
  generalize hr : s.reader.complete ((s.arrived.drop s.taken).take s.reader.wanted) = r at hread
  have hlog : log ++ r.2 <+: (serve ⟨p, .header⟩ (s.arrived.take (s.taken + s.reader.wanted))).2.2 := by
    rw [hread, List.prefix_append_right_inj]
    exact List.prefix_append _ _
  rw [← List.append_assoc] at hread
  obtain ⟨writer, ps, hwriter, hfold, hpushed, hmodel⟩ : ∃ writer ps, writer = { s.writer with
        wm := (answers wm corpus w (log ++ r.2)).1
        writePackets := s.writer.writePackets ++ ps
        writes := s.writer.writes ++
          if s.writer.writePackets = [] ∧ ps ≠ [] then [s.writer.popped] else [] } ∧
      r.2.foldlM (fun w p => Writer.processPacket wm p blank corpus w) s.writer = .ok writer ∧
      (pushed ++ ps).flatMap wire = (answers wm corpus w (log ++ r.2)).2.flatMap Endpoint.frame ∧
      writer.wm = (answers wm corpus w (log ++ r.2)).1 := by
    have hcases := complete_cases s.reader ((s.arrived.drop s.taken).take s.reader.wanted)
    rw [hr] at hcases
    rcases hcases with hnone | ⟨q, hq⟩
    · rw [hnone, List.append_nil, ← h.model]
      exact ⟨s.writer, [], by simp, rfl, by rw [List.append_nil, h.pushed], rfl⟩
    · obtain ⟨ps, hps, hwire⟩ := processPacket_answer wm q blank corpus s.writer
      rw [hq, answers_concat, ← h.model]
      refine ⟨_, ps, rfl, ?_, ?_, rfl⟩
      · rw [List.foldlM_cons, hps]
        rfl
      · rw [List.flatMap_append, List.flatMap_append, h.pushed, hwire]
  obtain ⟨haligned, hflows, hstalled⟩ := outbox_pushed h.aligned _ h.flows hwriter
  refine ⟨{ s with
    reader := r.1
    writer := writer
    sent := started s.sent writer
    taken := s.taken + s.reader.wanted }, ?_, ⟨pushed ++ ps, log ++ r.2, ?_⟩, rfl, List.prefix_rfl⟩
  · rw [Service.step, hr, hfold]
    rfl
  · exact ⟨haligned, hflows, fun hc => mt hstalled.mp (h.flowing hc), hpushed, hmodel, hle, hlog,
      fun _ => hread, h.going⟩

lemma Serving.step {e : Event} (he : e.CanOccur s) (hcalm : calm → ¬ e.Fails) :
    ∃ t, Service.step wm corpus s e = .ok t ∧ (∃ pushed' log',
      Serving wm corpus calm p w t pushed' log') ∧ s.arrived <+: t.arrived ∧ s.out <+: t.out ∧
      ((∀ bytes, e ≠ .arrive bytes) → t.arrived = s.arrived) := by
  have own (hh : ∃ t, Service.step wm corpus s e = .ok t ∧ (∃ pushed' log',
      Serving wm corpus calm p w t pushed' log') ∧ t.arrived = s.arrived ∧ s.out <+: t.out) :
      ∃ t, Service.step wm corpus s e = .ok t ∧ (∃ pushed' log',
        Serving wm corpus calm p w t pushed' log') ∧ s.arrived <+: t.arrived ∧ s.out <+: t.out ∧
        ((∀ bytes, e ≠ .arrive bytes) → t.arrived = s.arrived) := by
    obtain ⟨t, ht, hs, harrived, hout⟩ := hh
    exact ⟨t, ht, hs, harrived ▸ List.prefix_rfl, hout, fun _ => harrived⟩
  cases e with
  | arrive bytes =>
    exact ⟨_, rfl, ⟨pushed, log, h.arrive bytes⟩, List.prefix_append _ _, List.prefix_rfl,
      fun hne => (hne bytes rfl).elim⟩
  | read blank => exact own (h.read he)
  | readFailed n =>
    obtain ⟨t, ht, hs, hh⟩ := h.readFailed he (fun hc => hcalm hc trivial)
    exact own ⟨t, ht, ⟨_, _, hs⟩, hh⟩
  | transmit i n =>
    obtain ⟨t, ht, hs, hh⟩ := h.transmit (n := n) he
    exact own ⟨t, ht, ⟨_, _, hs⟩, hh⟩
  | written i ec =>
    obtain ⟨t, ht, hs, hh⟩ := h.written he (fun hc => by simpa [Event.Fails] using hcalm hc)
    exact own ⟨t, ht, ⟨_, _, hs⟩, hh⟩

lemma Serving.out_prefix : s.out <+: (answers wm corpus w
    (serve ⟨p, .header⟩ (s.arrived.take s.taken)).2.2).2.flatMap Endpoint.frame := by
  have hout := h.flows.out_prefix
  rw [h.pushed] at hout
  exact hout.trans ((answers_mono w h.processed).flatMap _)

lemma Serving.idle (hc : calm) (hi : s.Idle) :
    s.out = (answers wm corpus w (serve ⟨p, .header⟩ s.arrived).2.2).2.flatMap Endpoint.frame ∧
      s.writer.wm = (answers wm corpus w (serve ⟨p, .header⟩ s.arrived).2.2).1 := by
  obtain ⟨hw, hend⟩ := hi
  have hwrites : s.outbox.writes = [] := by rw [outbox, hw, List.zipWith_nil_left]
  have hout : s.out = pushed.flatMap wire := h.flows.out_eq_of_flowing (h.flowing hc) hwrites
  have hlt : ¬ s.reader.wanted ≤ ([] ++ s.arrived.drop s.taken).length := by
    rw [List.nil_append, List.length_drop]
    have := h.taken
    omega
  have hread := serve_resume (h.reading (h.going hc)) (s.arrived.drop s.taken)
  rw [serve_of_lt hlt, List.append_nil, List.take_append_drop] at hread
  rw [hread, hout, h.pushed, h.model]
  exact ⟨rfl, rfl⟩

end

lemma start_serving (wm : Served W) (corpus : Option Bytes) (calm : Prop) (p : Packet) (w : W) :
    Serving wm corpus calm p w (start p w) [] [] where
  aligned := rfl
  flows := Outbox.empty_flows wire
  flowing _ h := h.2 rfl
  pushed := rfl
  model := rfl
  taken := Nat.le_refl 0
  processed := List.nil_prefix
  reading _ := by rw [List.nil_append]; rfl
  going _ := rfl

lemma Reached.serving {wm : Served W} {corpus : Option Bytes} {p : Packet} {w : W}
    {events : List Event} {s : Service W} (h : Reached wm corpus p w events s) (calm : Prop)
    (hcalm : calm → ∀ e ∈ events, ¬ e.Fails) :
    ∃ pushed log, Serving wm corpus calm p w s pushed log := by
  refine Runs.Run.invariant_of_mem (P := fun s => ∃ pushed log, Serving wm corpus calm p w s pushed log)
    h ?_ ⟨[], [], start_serving wm corpus calm p w⟩
  rintro s t e hmem ⟨pushed, log, hs⟩ hcan he
  obtain ⟨t', ht', hs', -⟩ := hs.step hcan (fun hc => hcalm hc e hmem)
  rw [he, Except.ok.injEq] at ht'
  rwa [ht']

theorem server_law (wm : Served W) (corpus : Option Bytes) (p : Packet) (w : W)
    (events : List Event) (s : Service W) (h : Reached wm corpus p w events s) :
    s.out <+: (answers wm corpus w
      (serve ⟨p, .header⟩ (s.arrived.take s.taken)).2.2).2.flatMap Endpoint.frame ∧
    (∀ e, e.CanOccur s → ∃ t, step wm corpus s e = .ok t) ∧
    ((∀ e ∈ events, ¬ e.Fails) → s.Idle →
      s.out = (answers wm corpus w (serve ⟨p, .header⟩ s.arrived).2.2).2.flatMap Endpoint.frame ∧
      s.writer.wm = (answers wm corpus w (serve ⟨p, .header⟩ s.arrived).2.2).1) := by
  obtain ⟨pushed, log, hs⟩ := h.serving False False.elim
  refine ⟨hs.out_prefix, fun e he => ?_, fun hcalm hi => ?_⟩
  · obtain ⟨t, ht, -⟩ := hs.step he False.elim
    exact ⟨t, ht⟩
  · obtain ⟨_, _, hs⟩ := h.serving (∀ e ∈ events, ¬ e.Fails) id
    exact hs.idle hcalm hi

set_option maxRecDepth 8000 in
theorem server_law_word :
    let wm : Served Unit := ⟨fun _ _ => (), fun _ => ((), [97]), fun _ => ((), []), fun _ => 4⟩
    ∃ s, Reached wm none (fresh (List.replicate 517 0) List.length_replicate) ()
        [.arrive [48, 48, 48, 49, 49, 98],
          .read (fun _ => fresh (List.replicate 517 0) List.length_replicate),
          .read (fun _ => fresh (List.replicate 517 0) List.length_replicate), .transmit 0 3] s ∧
      s.out <+: (answers wm none () (serve ⟨fresh (List.replicate 517 0) List.length_replicate, .header⟩
        (s.arrived.take s.taken)).2.2).2.flatMap Endpoint.frame := by
  intro wm
  have h : Reached wm none (fresh (List.replicate 517 0) List.length_replicate) ()
      [.arrive [48, 48, 48, 49, 49, 98],
        .read (fun _ => fresh (List.replicate 517 0) List.length_replicate),
        .read (fun _ => fresh (List.replicate 517 0) List.length_replicate), .transmit 0 3]
      (_ : Service Unit) :=
    .cons trivial rfl
      (.cons ⟨rfl, by decide⟩ rfl
      (.cons ⟨rfl, by decide +kernel⟩ rfl
      (.cons Nat.zero_lt_one rfl .nil)))
  exact ⟨_, h, (server_law wm none _ () _ _ h).1⟩

end Service

end WordModel
