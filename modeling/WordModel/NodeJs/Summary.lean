import WordModel.Packet.WriteQueue
import WordModel.NodeJs.ModelAdaptor

/-! A summary, from the packets that the server queues to the strings that the client reads. -/

namespace WordModel.NodeJs

open Checked Decimal Javascript ModelServer ModelServer.Writer

def decodePackets : ℕ → Bytes → List Bytes
  | 0, _ => []
  | n + 1, buf => (decodePacket buf).string :: decodePackets n (decodePacket buf).remaining

def Delivers (ps : List Packet) (text : Bytes) : Prop :=
  (decodePackets ps.length (ps.flatMap Packet.wire)).flatten = text

lemma decodePackets_replies (replies : List Reply) :
    decodePackets replies.length (replies.flatMap Reply.bytes) =
      replies.map (fun r => Buffer.sevenBit r.body.dropLast) := by
  induction replies with
  | nil => rfl
  | cons r replies ih =>
    rw [List.flatMap_cons, List.length_cons, decodePackets, r.decodePacket_bytes, ih]
    rfl

lemma summaryBodies_of_le {ss : Bytes} (h : Packet.maxBodyLength ≤ ss.length) :
    summaryBodies ss =
      ss.take Packet.maxBodyLength :: summaryBodies (ss.drop Packet.maxBodyLength) := by
  rw [summaryBodies]
  split
  · rename_i hread
    rw [readChunk_eq, if_pos h] at hread
    cases hread
  · rename_i hread
    rw [readChunk_eq, if_pos h] at hread
    cases hread
    rfl

lemma summaryBodies_of_lt {ss : Bytes} (h : ss.length < Packet.maxBodyLength) :
    summaryBodies ss = [ss ++ [255]] := by
  rw [summaryBodies]
  split
  · rename_i hread
    rw [readChunk_eq, if_neg (by omega)] at hread
    cases hread
    rfl
  · rename_i hread
    rw [readChunk_eq, if_neg (by omega)] at hread
    cases hread

lemma chunk_induction {P : Bytes → Prop} (last : ∀ ss, ss.length < Packet.maxBodyLength → P ss)
    (more : ∀ ss, Packet.maxBodyLength ≤ ss.length → P (ss.drop Packet.maxBodyLength) → P ss)
    (ss : Bytes) : P ss := by
  have hmax : Packet.maxBodyLength = 512 := rfl
  induction hn : ss.length using Nat.strong_induction_on generalizing ss with
  | h n ih =>
    rcases Nat.lt_or_ge ss.length Packet.maxBodyLength with hlt | hle
    · exact last ss hlt
    · refine more ss hle (ih (ss.drop Packet.maxBodyLength).length ?_ _ rfl)
      rw [List.length_drop]
      omega

lemma summaryBodies_bounds (ss : Bytes) :
    ∀ body ∈ summaryBodies ss, body ≠ [] ∧ body.length ≤ Packet.maxBodyLength := by
  have hmax : Packet.maxBodyLength = 512 := rfl
  induction ss using chunk_induction with
  | last ss hlt =>
    rw [summaryBodies_of_lt hlt]
    intro body hbody
    obtain rfl := List.mem_singleton.mp hbody
    exact ⟨by simp, by rw [List.length_append]; exact hlt⟩
  | more ss hle ih =>
    rw [summaryBodies_of_le hle]
    intro body hbody
    rcases List.mem_cons.mp hbody with rfl | hbody
    · constructor
      · rw [ne_eq, ← List.length_eq_zero_iff, List.length_take_of_le hle]
        omega
      · exact List.length_take_le _ _
    · exact ih body hbody

lemma length_dropLast_bodies (ss : Bytes) :
    ((summaryBodies ss).map List.dropLast).flatten.length + ss.length / 512 = ss.length := by
  have hmax : Packet.maxBodyLength = 512 := rfl
  induction ss using chunk_induction with
  | last ss hlt =>
    rw [summaryBodies_of_lt hlt, Nat.div_eq_of_lt (hmax ▸ hlt)]
    simp
  | more ss hle ih =>
    rw [List.length_drop] at ih
    rw [summaryBodies_of_le hle, List.map_cons, List.flatten_cons, List.length_append,
      List.length_dropLast, List.length_take_of_le hle]
    omega

def bodyReply (body : Bytes)
    (h : body ≠ [] ∧ body.length ≤ Packet.maxBodyLength) : Reply where
  type := .summary
  type_ne := by decide
  body := body
  body_ne := h.1
  body_le := h.2

def summaryReplies (ss : Bytes) : List Reply :=
  (summaryBodies ss).pmap bodyReply (summaryBodies_bounds ss)

lemma summaryPackets_wire (blank : ℕ → Packet) (ss : Bytes) :
    (summaryPackets blank ss).map Packet.wire = (summaryReplies ss).map Reply.bytes := by
  apply List.ext_getElem
  · simp [summaryPackets, summaryReplies]
  · intro k hk hk'
    simp only [summaryPackets, summaryReplies, List.getElem_map, List.getElem_mapIdx,
      List.getElem_pmap]
    exact (bodyReply _ _).wire_eq_bytes (blank k)

lemma decodePackets_summary (blank : ℕ → Packet) (ss : Bytes) :
    decodePackets (summaryPackets blank ss).length
        ((summaryPackets blank ss).flatMap Packet.wire) =
      (summaryBodies ss).map (fun body => Buffer.sevenBit body.dropLast) := by
  have hlength : (summaryPackets blank ss).length = (summaryReplies ss).length := by
    simp [summaryPackets, summaryReplies]
  rw [List.flatMap_def, summaryPackets_wire, ← List.flatMap_def, hlength, decodePackets_replies,
    summaryReplies, List.map_pmap]
  simp only [bodyReply, List.pmap_eq_map]

lemma delivers_iff (blank : ℕ → Packet) (ss : Bytes) (hseven : ∀ c ∈ ss, c.toNat < 128) :
    Delivers (summaryPackets blank ss) ss ↔ ss.length < 512 := by
  have hmax : Packet.maxBodyLength = 512 := rfl
  rw [Delivers, decodePackets_summary]
  constructor
  · intro h
    have hlength := congrArg List.length h
    have hsame : ((summaryBodies ss).map
        (fun body => Buffer.sevenBit body.dropLast)).flatten.length =
        ((summaryBodies ss).map List.dropLast).flatten.length := by
      simp [List.length_flatten, Buffer.sevenBit, Function.comp_def]
    have hlost := length_dropLast_bodies ss
    rw [← hsame, hlength] at hlost
    omega
  · intro h
    rw [summaryBodies_of_lt h, List.map_singleton, List.flatten_singleton, List.dropLast_concat,
      Buffer.sevenBit_eq hseven]

section Law

variable {W : Type} (wm : Served W) (blank : ℕ → Packet) (s : Writer W)

lemma sendSummary_eq : sendSummary wm blank s = .ok { s with
    wm := (wm.writeSummary s.wm).1
    writePackets := s.writePackets ++ summaryPackets blank (wm.writeSummary s.wm).2
    writes := s.writes ++ if s.writePackets = [] then [s.popped] else [] } := by
  have hne : summaryPackets blank (wm.writeSummary s.wm).2 ≠ [] := by
    rw [summaryPackets, ne_eq, List.mapIdx_eq_nil_iff]
    exact summaryBodies_ne_nil _
  exact push_eq _ hne

theorem summary_law (s' : Writer W) (h : sendSummary wm blank s = .ok s')
    (hascii : ∀ c ∈ (wm.writeSummary s.wm).2, c.toNat < 128) :
    Delivers (s'.writePackets.drop s.writePackets.length) (wm.writeSummary s.wm).2 ↔
      (wm.writeSummary s.wm).2.length < 512 := by
  rw [sendSummary_eq] at h
  obtain rfl := Except.ok.inj h
  rw [List.drop_left]
  exact delivers_iff blank _ hascii

end Law

theorem summary_law_short :
    let wm : Served Unit := ⟨fun _ _ => (), fun _ => ((), []), fun _ => ((), [97, 98]), fun _ => 0⟩
    let blank := fun _ => Packet.fresh (List.replicate 517 0) (by rw [List.length_replicate]; rfl)
    ∃ s', sendSummary wm blank (start ()) = .ok s' ∧ Delivers s'.writePackets [97, 98] := by
  intro wm blank
  have h := sendSummary_eq wm blank (start ())
  exact ⟨_, h, (summary_law wm blank (start ()) _ h (by simp [wm])).mpr (by decide)⟩

theorem summary_law_fails : ¬ ∀ (text : Bytes) (blank : ℕ → Packet), (∀ c ∈ text, c.toNat < 128) →
    ∀ s', sendSummary ⟨fun _ _ => (), fun _ => ((), []), fun _ => ((), text), fun _ => 0⟩ blank
      (start ()) = .ok s' → Delivers s'.writePackets text := by
  intro h
  let blank := fun _ : ℕ => Packet.fresh (List.replicate 517 0)
    (by rw [List.length_replicate]; rfl)
  have hascii : ∀ c ∈ List.replicate 512 (97 : UInt8), c.toNat < 128 := by
    intro c hc
    rw [List.eq_of_mem_replicate hc]
    decide
  have hdelivers := h (List.replicate 512 97) blank hascii _ (sendSummary_eq _ _ _)
  have hlt := (delivers_iff blank _ hascii).mp hdelivers
  rw [List.length_replicate] at hlt
  exact Nat.lt_irrefl 512 hlt

end WordModel.NodeJs
