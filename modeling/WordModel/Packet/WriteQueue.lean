import WordModel.Library.Runs
import WordModel.Packet.ModelServer

/-! The server's writing side: the replies to the packets it has read, queued and written
one after the other. -/

namespace WordModel.ModelServer

open Checked Decimal Packet

/-- The word model, as far as the server uses it. -/
structure Served (W : Type) where
  putc : W → UInt8 → W
  getPrediction : W → W × Bytes
  writeSummary : W → W × Bytes
  trainingMistakes : W → ℤ

inductive Sequence where
  | writePackets
  | writes
  deriving DecidableEq

-- An element of a deque stays where it is until it is popped: its address is how many
-- were pushed before it. An outstanding write holds the address of what it writes.
structure Writer (W : Type) where
  wm : W
  writePackets : List Packet
  popped : ℕ
  writes : List ℕ

namespace Writer

variable {W : Type} (wm : Served W)

def start (w : W) : Writer W := ⟨w, [], 0, []⟩

def write (s : Writer W) : Exec Sequence (Writer W) := do
  let _ ← fetch .writePackets s.writePackets 0
  return { s with writes := s.writes ++ [s.popped] }

def push (s : Writer W) (ps : List Packet) : Exec Sequence (Writer W) :=
  let bWriting := !s.writePackets.isEmpty
  let s := { s with writePackets := s.writePackets ++ ps }
  if !bWriting then s.write else .ok s

def onWritten (s : Writer W) (ec : Bool) : Exec Sequence (Writer W) :=
  if !ec then do
    let (_, writePackets) ← popFront .writePackets s.writePackets
    let s := { s with writePackets := writePackets, popped := s.popped + 1 }
    if !s.writePackets.isEmpty then s.write else return s
  else .ok s

def predictionPacket (p : Packet) (prediction : Bytes) : Packet :=
  let p := (p.setBodyLength (prediction.length + 1)).setType .prediction
  (p.store headerLength ((prediction ++ [0]).take p.bodyLength)).encodeHeader

-- `%d` takes the low half of the `long`
def trainPacket (p : Packet) (mistakes : ℤ) : Packet :=
  let text := printInt 1 (BitVec.ofInt 32 mistakes).toInt
  (((p.setType .train).store headerLength (text ++ [0])).setBodyLength text.length).encodeHeader

def readChunk : ℕ → Bytes → Bytes × Option Bytes
  | 0, ss => ([], some ss)
  -- at the end `get` gives -1, and the stream is no longer good
  | _ + 1, [] => ([255], none)
  | n + 1, c :: ss => (c :: (readChunk n ss).1, (readChunk n ss).2)

lemma readChunk_eq (n : ℕ) (ss : Bytes) : readChunk n ss =
    if n ≤ ss.length then (ss.take n, some (ss.drop n)) else (ss ++ [255], none) := by
  induction n generalizing ss with
  | zero => rfl
  | succ n ih =>
    cases ss with
    | nil => rfl
    | cons c ss =>
      rw [readChunk, ih, List.length_cons]
      by_cases h : n ≤ ss.length
      · simp [h]
      · simp [h]

def summaryBodies (ss : Bytes) : List Bytes :=
  match _ : readChunk maxBodyLength ss with
  | (body, none) => [body]
  | (body, some rest) => body :: summaryBodies rest
termination_by ss.length
decreasing_by
  rename_i h
  rw [readChunk_eq] at h
  split at h
  · rename_i hle
    have hrest : rest = ss.drop maxBodyLength := by
      simpa [eq_comm] using congrArg Prod.snd h
    have hpos : 0 < maxBodyLength := by decide
    rw [hrest, List.length_drop]
    omega
  · simp at h

def summaryPackets (blank : ℕ → Packet) (ss : Bytes) : List Packet :=
  (summaryBodies ss).mapIdx (fun k body => compose (blank k) .summary body)

-- What `grimm.get()` gives at the end of the file is passed on like a character.
def readCorpus : ℕ → Bytes → W → W
  | 0, _, w => w
  | _ + 1, [], w => wm.putc w 255
  | length + 1, c :: cs, w => readCorpus length cs (wm.putc w c)

-- `blank` is what a new packet finds in its memory, `corpus` the file if it could be opened.
def sendPrediction (blank : ℕ → Packet) (body : Bytes) (s : Writer W) :
    Exec Sequence (Writer W) :=
  let (w, prediction) := wm.getPrediction (body.foldl wm.putc s.wm)
  let s := { s with wm := w }
  if 0 < prediction.length then s.push [predictionPacket (blank 0) prediction] else .ok s

def sendSummary (blank : ℕ → Packet) (s : Writer W) : Exec Sequence (Writer W) :=
  let (w, ss) := wm.writeSummary s.wm
  let s := { s with wm := w }
  s.push (summaryPackets blank ss)

def train (blank : ℕ → Packet) (corpus : Option Bytes) (s : Writer W) :
    Exec Sequence (Writer W) :=
  let w := match corpus with
    | some cs => readCorpus wm 1500000 cs s.wm
    | none => s.wm
  let s := { s with wm := w }
  s.push [trainPacket (blank 0) (wm.trainingMistakes w)]

def processPacket (p : Processed) (blank : ℕ → Packet) (corpus : Option Bytes) (s : Writer W) :
    Exec Sequence (Writer W) :=
  if p.1 = PacketType.predict.code then sendPrediction wm blank p.2 s
  else if p.1 = PacketType.train.code then train wm blank corpus s
  else if p.1 = PacketType.summary.code then sendSummary wm blank s
  else .ok s

inductive Event where
  | processed (p : Processed) (blank : ℕ → Packet) (corpus : Option Bytes)
  | written (i : ℕ) (ec : Bool)

def step (s : Writer W) : Event → Exec Sequence (Writer W)
  | .processed p blank corpus => processPacket wm p blank corpus s
  | .written i ec => do
    let _ ← fetch .writes s.writes i
    onWritten { s with writes := s.writes.eraseIdx i } ec

inductive Note where
  | enqueued (p : Packet)
  /-- A write succeeded; it was of this packet if there was one at its address. -/
  | written (p : Option Packet)

def packetAt (s : Writer W) (address : ℕ) : Option Packet :=
  if s.popped ≤ address then s.writePackets[address - s.popped]? else none

def notes (s : Writer W) : Event → Writer W → List Note
  | .processed _ _ _, s' => (s'.writePackets.drop s.writePackets.length).map .enqueued
  | .written i false, _ => [.written ((s.writes[i]?).bind s.packetAt)]
  | .written _ true, _ => []

def enqueued (log : List Note) : List Packet :=
  log.filterMap (fun n => match n with | .enqueued p => some p | .written _ => none)

def written (log : List Note) : List (Option Packet) :=
  log.filterMap (fun n => match n with | .enqueued _ => none | .written p => some p)

def Event.CanOccur (s : Writer W) : Event → Prop
  | .processed _ _ _ => True
  | .written i _ => i < s.writes.length

def Event.fails : Event → Bool
  | .processed _ _ _ => false
  | .written _ ec => ec

abbrev Reached (w : W) (events : List Event) (s : Writer W × List Note) : Prop :=
  Runs.Run (Runs.traced (step wm) notes) (fun s e => e.CanOccur s.1) (start w, []) events s

lemma enqueued_append (log log' : List Note) :
    enqueued (log ++ log') = enqueued log ++ enqueued log' := List.filterMap_append

lemma written_append (log log' : List Note) :
    written (log ++ log') = written log ++ written log' := List.filterMap_append

lemma enqueued_map (ps : List Packet) :
    enqueued (ps.map .enqueued) = ps ∧ written (ps.map .enqueued) = [] := by
  constructor
  · simp [enqueued, List.filterMap_map]
  · simp [written, List.filterMap_map]

lemma summaryBodies_ne_nil (ss : Bytes) : summaryBodies ss ≠ [] := by
  rw [summaryBodies]
  split <;> simp

lemma push_eq (s : Writer W) {ps : List Packet} (h : ps ≠ []) : s.push ps =
    .ok { s with
      writePackets := s.writePackets ++ ps
      writes := s.writes ++ if s.writePackets = [] then [s.popped] else [] } := by
  obtain ⟨p, ps, rfl⟩ := List.exists_cons_of_ne_nil h
  cases hq : s.writePackets with
  | nil => simp [push, write, hq, fetch]
  | cons q qs => simp [push, hq]

lemma processPacket_cases (p : Processed) (blank : ℕ → Packet) (corpus : Option Bytes)
    (s : Writer W) : ∃ w ps, processPacket wm p blank corpus s =
      .ok { s with
        wm := w
        writePackets := s.writePackets ++ ps
        writes := s.writes ++ if s.writePackets = [] ∧ ps ≠ [] then [s.popped] else [] } := by
  have quiet (w : W) : ∃ w' ps, (.ok { s with wm := w } : Exec Sequence (Writer W)) =
      .ok { s with
        wm := w'
        writePackets := s.writePackets ++ ps
        writes := s.writes ++ if s.writePackets = [] ∧ ps ≠ [] then [s.popped] else [] } :=
    ⟨w, [], by simp⟩
  have pushing (w : W) {ps : List Packet} (h : ps ≠ []) :
      ∃ w' ps', ({ s with wm := w } : Writer W).push ps = .ok { s with
        wm := w'
        writePackets := s.writePackets ++ ps'
        writes := s.writes ++ if s.writePackets = [] ∧ ps' ≠ [] then [s.popped] else [] } :=
    ⟨w, ps, by rw [push_eq _ h]; simp [h]⟩
  rw [processPacket]
  split
  · rw [sendPrediction]
    dsimp only
    split
    · exact pushing _ (by simp)
    · exact quiet _
  · split
    · exact pushing _ (by simp)
    · split
      · refine pushing _ ?_
        rw [summaryPackets, ne_eq, List.mapIdx_eq_nil_iff]
        exact summaryBodies_ne_nil _
      · exact quiet _

/-- At most one write is outstanding, of the front packet; the packets that were enqueued
are those written and those in the queue. -/
structure Orderly (s : Writer W) (log : List Note) : Prop where
  writes : s.writes = [] ∨ s.writes = [s.popped] ∧ s.writePackets ≠ []
  queue : (enqueued log).map some = written log ++ s.writePackets.map some

lemma Orderly.processed {s s' : Writer W} {log : List Note} (h : Orderly s log) {p : Processed}
    {blank : ℕ → Packet} {corpus : Option Bytes}
    (he : step wm s (.processed p blank corpus) = .ok s') :
    Orderly s' (log ++ notes s (.processed p blank corpus) s') ∧
      (s'.popped = s.popped ∧ s.writePackets <+: s'.writePackets ∧ s.writes <+: s'.writes) ∧
      ((s.writePackets ≠ [] → s.writes ≠ []) → s'.writePackets ≠ [] → s'.writes ≠ []) := by
  obtain ⟨w, ps, hp⟩ := processPacket_cases wm p blank corpus s
  rw [step, hp] at he
  obtain rfl := Except.ok.inj he
  have hnotes : notes s (.processed p blank corpus) { s with
      wm := w
      writePackets := s.writePackets ++ ps
      writes := s.writes ++ if s.writePackets = [] ∧ ps ≠ [] then [s.popped] else [] } =
      ps.map .enqueued := by
    rw [notes, List.drop_left]
  obtain ⟨henqueued, hwritten⟩ := enqueued_map ps
  refine ⟨⟨?_, ?_⟩, ⟨rfl, List.prefix_append _ _, List.prefix_append _ _⟩, ?_⟩
  · dsimp only
    rcases h.writes with hw | ⟨hw, hq⟩
    · by_cases hc : s.writePackets = [] ∧ ps ≠ []
      · exact Or.inr ⟨by rw [hw, if_pos hc]; rfl, by simp [hc.2]⟩
      · exact Or.inl (by rw [hw, if_neg hc]; rfl)
    · exact Or.inr ⟨by rw [hw, if_neg (fun hc => hq hc.1)]; rfl, by simp [hq]⟩
  · rw [hnotes, enqueued_append, written_append, henqueued, hwritten, List.append_nil,
      List.map_append, h.queue, List.append_assoc, List.map_append]
  · intro hbusy hne
    dsimp only at hne ⊢
    by_cases hq : s.writePackets = []
    · rw [hq, List.nil_append] at hne
      simp [hq, hne]
    · simp [hbusy hq]

lemma Orderly.written {s s' : Writer W} {log : List Note} (h : Orderly s log) {i : ℕ} {ec : Bool}
    (he : step wm s (.written i ec) = .ok s') :
    Orderly s' (log ++ notes s (.written i ec) s') ∧
      (ec = false → s'.writePackets ≠ [] → s'.writes ≠ []) := by
  obtain ⟨a, ha, he⟩ := bind_eq_ok.mp he
  rcases h.writes with hw | ⟨hw, hq⟩
  · rw [hw, fetch_of_le (Nat.zero_le _)] at ha
    cases ha
  · obtain rfl : i = 0 := by
      cases i with
      | zero => rfl
      | succ i =>
        rw [hw, fetch_of_le (by simp)] at ha
        cases ha
    obtain ⟨p, ps, hps⟩ := List.exists_cons_of_ne_nil hq
    cases ec with
    | true =>
      obtain rfl := Except.ok.inj he
      refine ⟨⟨Or.inl (by simp [hw]), ?_⟩, fun hf => by cases hf⟩
      rw [notes, List.append_nil]
      exact h.queue
    | false =>
      have hnotes : notes s (.written 0 false) s' = [.written (some p)] := by
        simp [notes, hw, packetAt, hps]
      have hqueue : (enqueued (log ++ [.written (some p)])).map some =
          Writer.written (log ++ [.written (some p)]) ++ ps.map some := by
        have hold := h.queue
        rw [hps, List.map_cons] at hold
        rw [enqueued_append, written_append]
        simpa [enqueued, Writer.written] using hold
      rw [hnotes]
      simp only [onWritten, hps, popFront, hw, Bool.not_false, if_true, ok_bind,
        List.eraseIdx_cons_zero] at he
      cases ps with
      | nil =>
        obtain rfl := Except.ok.inj he
        exact ⟨⟨Or.inl rfl, hqueue⟩, fun _ hne => (hne rfl).elim⟩
      | cons q ps =>
        obtain rfl := Except.ok.inj he
        exact ⟨⟨Or.inr ⟨rfl, by simp⟩, hqueue⟩, fun _ _ => by simp⟩

lemma Orderly.progress {s : Writer W} {log : List Note} (h : Orderly s log) {e : Event}
    (hc : e.CanOccur s) : ∃ s', step wm s e = .ok s' := by
  cases e with
  | processed p blank corpus =>
    obtain ⟨w, ps, hp⟩ := processPacket_cases wm p blank corpus s
    exact ⟨_, hp⟩
  | written i ec =>
    obtain ⟨address, hget⟩ : ∃ address, s.writes[i]? = some address :=
      ⟨_, List.getElem?_eq_getElem hc⟩
    rcases h.writes with hw | ⟨hw, hq⟩
    · rw [hw] at hget
      cases hget
    · obtain ⟨p, ps, hps⟩ := List.exists_cons_of_ne_nil hq
      rw [step, fetch_of_getElem? hget, ok_bind, onWritten]
      cases ec with
      | true => exact ⟨_, rfl⟩
      | false =>
        simp only [hps, popFront, Bool.not_false, if_true, ok_bind]
        cases ps with
        | nil => exact ⟨_, rfl⟩
        | cons q ps => exact ⟨_, rfl⟩

lemma Orderly.step {s s' : Writer W × List Note} (h : Orderly s.1 s.2) {e : Event}
    (he : Runs.traced (step wm) notes s e = .ok s') : Orderly s'.1 s'.2 ∧ (e.fails = false →
      (s.1.writePackets ≠ [] → s.1.writes ≠ []) → s'.1.writePackets ≠ [] → s'.1.writes ≠ []) := by
  obtain ⟨hstep, hlog⟩ := Runs.traced_eq_ok.mp he
  rw [hlog]
  cases e with
  | processed p blank corpus =>
    obtain ⟨ho, _, hbusy⟩ := h.processed wm hstep
    exact ⟨ho, fun _ => hbusy⟩
  | written i ec =>
    obtain ⟨ho, hbusy⟩ := h.written wm hstep
    exact ⟨ho, fun hf _ => hbusy hf⟩

lemma start_orderly (w : W) : Orderly (start w) [] := ⟨Or.inl rfl, rfl⟩

section Run

variable {wm} {w : W} {events : List Event} {s : Writer W × List Note}
  (h : Reached wm w events s)

include h

lemma Reached.orderly : Orderly s.1 s.2 :=
  Runs.Run.invariant (P := fun s : Writer W × List Note => Orderly s.1 s.2) h
    (fun _ _ _ hs _ he => (hs.step wm he).1) (start_orderly w)

lemma Reached.busy (hf : ∀ e ∈ events, e.fails = false) :
    s.1.writePackets ≠ [] → s.1.writes ≠ [] := by
  refine (Runs.Run.invariant_of_mem (P := fun s : Writer W × List Note => Orderly s.1 s.2 ∧
    (s.1.writePackets ≠ [] → s.1.writes ≠ [])) h ?_ ⟨start_orderly w, fun hn => (hn rfl).elim⟩).2
  rintro s s' e hmem ⟨hs, hb⟩ _ he
  obtain ⟨ho, hbusy⟩ := hs.step wm he
  exact ⟨ho, hbusy (hf e hmem) hb⟩

end Run

theorem writes_law (w : W) (events : List Event) (s : Writer W) (log : List Note)
    (h : Reached wm w events (s, log)) :
    (s.writes = [] ∨ s.writes = [s.popped] ∧ s.writePackets ≠ []) ∧
    (∀ e, e.CanOccur s → ∃ s', step wm s e = .ok s') ∧
    (∀ p blank corpus s', step wm s (.processed p blank corpus) = .ok s' →
      s'.popped = s.popped ∧ s.writePackets <+: s'.writePackets ∧ s.writes <+: s'.writes) ∧
    (enqueued log).map some = written log ++ s.writePackets.map some ∧
    ((∀ e ∈ events, e.fails = false) → (s.writes ≠ [] ↔ s.writePackets ≠ [])) := by
  have ho := h.orderly
  refine ⟨ho.writes, fun e hc => ho.progress wm hc, fun p blank corpus s' he => ?_, ho.queue,
    fun hf => ⟨fun hw => ?_, h.busy hf⟩⟩
  · exact (ho.processed wm he).2.1
  · rcases ho.writes with hn | ⟨_, hq⟩
    · exact (hw hn).elim
    · exact hq

theorem writes_law_three :
    let wm : Served Unit := ⟨fun _ _ => (), fun _ => ((), [97]), fun _ => ((), []), fun _ => 4⟩
    let blank := fun _ => fresh (List.replicate 517 0) (by rw [List.length_replicate]; rfl)
    ∃ (s : Writer Unit) (log : List Note), Reached wm () [.processed (1, [98]) blank none,
      .processed (0, []) blank (some [98, 99]), .written 0 false, .written 0 true] (s, log) ∧
    (enqueued log).map some = written log ++ s.writePackets.map some ∧ (written log).length = 1 := by
  intro wm blank
  have h : Reached wm () [.processed (1, [98]) blank none,
      .processed (0, []) blank (some [98, 99]), .written 0 false, .written 0 true]
      (_ : Writer Unit × List Note) :=
    .cons trivial rfl (.cons trivial rfl (.cons (Nat.zero_lt_succ 0) rfl
      (.cons (Nat.zero_lt_succ 0) rfl .nil)))
  exact ⟨_, _, h, (writes_law wm () _ _ _ h).2.2.2.1, rfl⟩

end Writer

end WordModel.ModelServer
