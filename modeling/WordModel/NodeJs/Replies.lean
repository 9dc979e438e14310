import WordModel.Packet.WriteQueue
import WordModel.NodeJs.ModelAdaptor

/-! The reply packets of a prediction and of a training, as the client decodes them. -/

namespace WordModel.NodeJs

open Checked Decimal Javascript ModelServer ModelServer.Writer

inductive Request where
  | predict (body : Bytes)
  | train (corpus : Option Bytes)

def Request.type : Request → PacketType
  | .predict _ => .prediction
  | .train _ => .train

section

variable {W : Type} (wm : Served W)

def handle (blank : ℕ → Packet) : Request → Writer W → Exec Sequence (Writer W)
  | .predict body => sendPrediction wm blank body
  | .train corpus => ModelServer.Writer.train wm blank corpus

def trained (corpus : Option Bytes) (w : W) : W :=
  match corpus with
  | some cs => readCorpus wm 1500000 cs w
  | none => w

def told (w : W) : Request → Bytes
  | .predict body => (wm.getPrediction (body.foldl wm.putc w)).2
  | .train corpus => decimal (wm.trainingMistakes (trained wm corpus w)).toNat

def Tellable (w : W) : Request → Prop
  | .predict body =>
    let prediction := (wm.getPrediction (body.foldl wm.putc w)).2
    prediction ≠ [] ∧ prediction.length ≤ 511 ∧ ∀ c ∈ prediction, 0 < c.toNat ∧ c.toNat < 128
  | .train corpus => 0 ≤ wm.trainingMistakes (trained wm corpus w)

/-- The handler queues one packet, which the client decodes to what it is to be told. -/
def Tells (blank : ℕ → Packet) (s : Writer W) (r : Request) : Prop :=
  ∃ s' p, handle wm blank r s = .ok s' ∧ s'.writePackets = s.writePackets ++ [p] ∧
    (decodePacket p.wire).type = some (packetNumber r.type : ℚ) ∧
    (decodePacket p.wire).string = told wm s.wm r

end

lemma encodeHeader_reply {p : Packet} (r : Reply) (htype : p.type = r.type.code)
    (hlength : p.bodyLength = r.body.length) (hbody : p.body.take p.bodyLength = r.body) :
    p.encodeHeader.wire = r.bytes := by
  have hset : p.setType r.type = p := by
    cases p
    rw [Packet.setType, ← htype]
  have hwire := Packet.encodeHeader_wire p r.type
  rw [hset, hbody, hlength] at hwire
  exact hwire

def predictionReply (prediction : Bytes) (h : prediction.length ≤ 511) : Reply where
  type := .prediction
  type_ne := by decide
  body := prediction ++ [0]
  body_ne := by simp
  body_le := by
    rw [List.length_append]
    exact Nat.succ_le_succ h

lemma predictionPacket_wire (p : Packet) {prediction : Bytes} (h : prediction.length ≤ 511) :
    (predictionPacket p prediction).wire = (predictionReply prediction h).bytes := by
  have hmax : Packet.maxBodyLength = 512 := rfl
  have hlength : ((p.setBodyLength (prediction.length + 1)).setType .prediction).bodyLength =
      (prediction ++ [0]).length := by
    rw [List.length_append, List.length_singleton]
    exact if_neg (by omega)
  have hfits : (prediction ++ [0]).length ≤ Packet.maxBodyLength := by
    rw [List.length_append, List.length_singleton]
    omega
  have hstored : ((prediction ++ [0]).take (prediction ++ [0]).length) = prediction ++ [0] :=
    List.take_length
  rw [predictionPacket, hlength, hstored]
  refine encodeHeader_reply (predictionReply prediction h) rfl hlength ?_
  have hbody := Packet.store_body
    (p := (p.setBodyLength (prediction.length + 1)).setType .prediction) hfits
  rw [← hlength] at hbody
  exact hbody

/-- `sprintf` of the count -/
def mistakesText (mistakes : ℤ) : Bytes := printInt 1 (BitVec.ofInt 32 mistakes).toInt

lemma printInt_one (n : ℕ) : printInt 1 n = decimal n := by
  have hpos := List.length_pos_iff.mpr (decimal_ne_nil n)
  rw [printInt_natCast, Nat.sub_eq_zero_of_le hpos, List.replicate_zero, List.nil_append]

lemma printInt_one_neg {n : ℤ} (h : n < 0) : printInt 1 n = 45 :: decimal n.natAbs := by
  simp [printInt, h]

lemma mistakesText_length (mistakes : ℤ) :
    mistakesText mistakes ≠ [] ∧ (mistakesText mistakes).length ≤ 11 := by
  have hlow := BitVec.toInt_lt (x := BitVec.ofInt 32 mistakes)
  have hhigh := BitVec.le_toInt (x := BitVec.ofInt 32 mistakes)
  rw [mistakesText]
  generalize (BitVec.ofInt 32 mistakes).toInt = n at *
  have hdigits := (decimal_length_le_iff n.natAbs (show 0 < 10 by decide)).mpr (by omega)
  rcases lt_or_ge n 0 with hneg | hpos
  · rw [printInt_one_neg hneg]
    exact ⟨List.cons_ne_nil _ _, Nat.succ_le_succ hdigits⟩
  · obtain ⟨k, rfl⟩ := Int.eq_ofNat_of_zero_le hpos
    rw [printInt_one]
    exact ⟨decimal_ne_nil k, Nat.le_succ_of_le hdigits⟩

def trainReply (mistakes : ℤ) : Reply where
  type := .train
  type_ne := by decide
  body := mistakesText mistakes
  body_ne := (mistakesText_length mistakes).1
  body_le := Nat.le_trans (mistakesText_length mistakes).2 (by decide)

lemma trainPacket_wire (p : Packet) (mistakes : ℤ) :
    (trainPacket p mistakes).wire = (trainReply mistakes).bytes := by
  have hmax : Packet.maxBodyLength = 512 := rfl
  have hle := (mistakesText_length mistakes).2
  have hlength : (((p.setType .train).store Packet.headerLength
      (mistakesText mistakes ++ [0])).setBodyLength (mistakesText mistakes).length).bodyLength =
      (mistakesText mistakes).length := if_neg (by omega)
  have hfits : (mistakesText mistakes ++ [0]).length ≤ Packet.maxBodyLength := by
    rw [List.length_append, List.length_singleton]
    omega
  refine encodeHeader_reply (trainReply mistakes) rfl hlength ?_
  have hstored := congrArg (List.take (mistakesText mistakes).length)
    (Packet.store_body (p := p.setType .train) hfits)
  rw [List.take_take, List.length_append, Nat.min_eq_left (Nat.le_add_right _ _),
    List.take_left] at hstored
  rw [← mistakesText, hlength]
  exact hstored

lemma decodePacket_reply {p : Packet} {r : Reply} (h : p.wire = r.bytes) :
    decodePacket p.wire = ⟨some (packetNumber r.type), Buffer.sevenBit r.body.dropLast, []⟩ := by
  have hdecode := r.decodePacket_bytes []
  rwa [List.append_nil, ← h] at hdecode

lemma decimal_length_mono {m n : ℕ} (h : m ≤ n) : (decimal m).length ≤ (decimal n).length := by
  have hpos := List.length_pos_iff.mpr (decimal_ne_nil n)
  have hlt := (decimal_length_le_iff n hpos).mp (Nat.le_refl _)
  exact (decimal_length_le_iff m hpos).mpr (Nat.lt_of_le_of_lt h hlt)

lemma mistakesText_dropLast {mistakes : ℤ} (h : 0 ≤ mistakes) :
    Buffer.sevenBit (mistakesText mistakes).dropLast ≠ decimal mistakes.toNat := by
  intro heq
  rw [mistakesText] at heq
  rcases lt_or_ge (BitVec.ofInt 32 mistakes).toInt 0 with hneg | hpos
  · rw [printInt_one_neg hneg] at heq
    have hmem : (45 : UInt8) ∈ decimal mistakes.toNat := by
      rw [← heq, List.dropLast_cons_of_ne_nil (decimal_ne_nil _)]
      exact List.mem_cons_self
    exact absurd (decimal_isDigit _ _ hmem) (by decide)
  · have hle : (BitVec.ofInt 32 mistakes).toInt ≤ mistakes := by
      rw [BitVec.toInt_ofInt] at hpos ⊢
      rw [Int.bmod_def] at hpos ⊢
      split at hpos <;> omega
    obtain ⟨k, hk⟩ := Int.eq_ofNat_of_zero_le hpos
    rw [hk, printInt_one] at heq
    have hlength := congrArg List.length heq
    have hmono := decimal_length_mono (show k ≤ mistakes.toNat by omega)
    have hne := List.length_pos_iff.mpr (decimal_ne_nil k)
    rw [Buffer.sevenBit, List.length_map, List.length_dropLast] at hlength
    omega

section Law

variable {W : Type} (wm : Served W) (blank : ℕ → Packet) (s : Writer W)

lemma handle_predict (body : Bytes) (h : (wm.getPrediction (body.foldl wm.putc s.wm)).2 ≠ []) :
    ∃ s', handle wm blank (.predict body) s = .ok s' ∧ s'.writePackets = s.writePackets ++
      [predictionPacket (blank 0) (wm.getPrediction (body.foldl wm.putc s.wm)).2] := by
  rw [handle, sendPrediction]
  dsimp only
  rw [if_pos (List.length_pos_iff.mpr h), push_eq _ (List.cons_ne_nil _ _)]
  exact ⟨_, rfl, rfl⟩

lemma handle_train (corpus : Option Bytes) :
    ∃ s', handle wm blank (.train corpus) s = .ok s' ∧ s'.writePackets = s.writePackets ++
      [trainPacket (blank 0) (wm.trainingMistakes (trained wm corpus s.wm))] :=
  ⟨_, push_eq { s with wm := trained wm corpus s.wm } (List.cons_ne_nil _ _), rfl⟩

lemma not_tells_train {corpus : Option Bytes} (h : Tellable wm s.wm (.train corpus)) :
    ¬ Tells wm blank s (.train corpus) := by
  rintro ⟨s', p, hs', hp, -, hstring⟩
  obtain ⟨s'', hs'', hp'⟩ := handle_train wm blank s corpus
  rw [hs', Except.ok.injEq] at hs''
  subst hs''
  rw [hp, List.append_right_inj, List.singleton_inj] at hp'
  subst hp'
  rw [decodePacket_reply (trainPacket_wire _ _)] at hstring
  exact mistakesText_dropLast h hstring

theorem replies_law (r : Request) (h : Tellable wm s.wm r) :
    Tells wm blank s r ↔ ∃ body, r = .predict body := by
  cases r with
  | predict body =>
    obtain ⟨hne, hle, hascii⟩ := h
    obtain ⟨s', hs', hp⟩ := handle_predict wm blank s body hne
    have hdecode := decodePacket_reply (predictionPacket_wire (blank 0) hle)
    have hbody : (predictionReply _ hle).body.dropLast =
        (wm.getPrediction (body.foldl wm.putc s.wm)).2 := List.dropLast_concat
    refine ⟨fun _ => ⟨body, rfl⟩, fun _ => ⟨s', _, hs', hp, ?_, ?_⟩⟩
    · rw [hdecode]
      rfl
    · rw [hdecode, hbody]
      exact Buffer.sevenBit_eq (fun c hc => (hascii c hc).2)
  | train corpus => exact ⟨fun ht => absurd ht (not_tells_train wm blank s h), nofun⟩

end Law

theorem replies_law_word :
    let wm : Served Unit := ⟨fun _ _ => (), fun _ => ((), [104, 105]), fun _ => ((), []), fun _ => 0⟩
    let blank := fun _ => Packet.fresh (List.replicate 517 0) (by rw [List.length_replicate]; rfl)
    Tells wm blank (start ()) (.predict [104]) := by
  intro wm blank
  have htellable : Tellable wm (start ()).wm (.predict [104]) :=
    ⟨List.cons_ne_nil _ _, by decide, by simp [wm]⟩
  exact (replies_law wm blank (start ()) (.predict [104]) htellable).mpr ⟨[104], rfl⟩

theorem replies_law_fails :
    let wm : Served Unit := ⟨fun _ _ => (), fun _ => ((), []), fun _ => ((), []), fun _ => 7⟩
    let blank := fun _ => Packet.fresh (List.replicate 517 0) (by rw [List.length_replicate]; rfl)
    Tellable wm () (.train none) ∧ ¬ Tells wm blank (start ()) (.train none) := by
  -- a count of seven arrives as no digits at all
  intro wm blank
  have h : Tellable wm (start ()).wm (.train none) := show (0 : ℤ) ≤ 7 by decide
  exact ⟨h, not_tells_train wm blank (start ()) h⟩

end WordModel.NodeJs
