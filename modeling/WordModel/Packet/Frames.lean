import WordModel.Packet.Endpoint

/-! A stream of packets as it is read: the read that is posted is always of the part that
comes next. -/

namespace WordModel.Endpoint

open Checked Decimal Packet

def frame (q : PacketType × Bytes) : Bytes := header q.1 q.2.length ++ q.2

lemma flatMap_frame_drop {frames : List (PacketType × Bytes)} {k : ℕ} {q : PacketType × Bytes}
    (h : frames[k]? = some q) :
    (frames.drop k).flatMap frame = frame q ++ (frames.drop (k + 1)).flatMap frame := by
  obtain ⟨hlt, rfl⟩ := List.getElem?_eq_some_iff.mp h
  rw [List.drop_eq_getElem_cons hlt, List.flatMap_cons]

lemma flatMap_frame_take_succ {frames : List (PacketType × Bytes)} {k : ℕ} {q : PacketType × Bytes}
    (h : frames[k]? = some q) :
    (frames.take (k + 1)).flatMap frame = (frames.take k).flatMap frame ++ frame q := by
  rw [List.take_add_one, h, List.flatMap_append]
  simp

lemma flatMap_frame_split (frames : List (PacketType × Bytes)) (k : ℕ) :
    frames.flatMap frame = (frames.take k).flatMap frame ++ (frames.drop k).flatMap frame := by
  rw [← List.flatMap_append, List.take_append_drop]

/-- How far the reads have come in a stream of frames, of which `k` have been read. -/
inductive Synced (calm : Prop) (frames : List (PacketType × Bytes)) (s : Endpoint) (k : ℕ) : Prop
  | unopened : s.connected = false → s.posted = [] → s.taken = 0 → k = 0 → Synced calm frames s k
  | header : s.posted = [.header] → s.consumed = (frames.take k).flatMap frame →
      Synced calm frames s k
  | body (q : PacketType × Bytes) : frames[k]? = some q → s.posted = [.body] →
      s.consumed = (frames.take k).flatMap frame ++ Packet.header q.1 q.2.length →
      s.readPacket.bodyLength = q.2.length → s.readPacket.type = q.1.code → Synced calm frames s k
  | stopped : s.connected = true → s.posted = [] → ¬ calm → Synced calm frames s k

structure Reads (calm : Prop) (frames : List (PacketType × Bytes)) (s : Endpoint) (k : ℕ) : Prop where
  connected : s.posted ≠ [] → s.connected = true
  taken : s.taken ≤ s.arrived.length
  arrived : s.arrived <+: frames.flatMap frame
  count : k ≤ frames.length
  synced : Synced calm frames s k

section

variable {calm : Prop} {frames : List (PacketType × Bytes)} {s : Endpoint} {k : ℕ}
  (h : Reads calm frames s k)

include h

lemma Reads.posted_length : s.posted.length ≤ 1 := by
  cases h.synced with
  | unopened _ hp => simp [hp]
  | header hp => simp [hp]
  | body _ _ hp => simp [hp]
  | stopped _ hp => simp [hp]

lemma Reads.of_read {ec : Bool} {n : ℕ} (he : Event.CanOccur s (.read ec n)) :
    ∃ r, s.posted = [r] ∧ s.taken + n ≤ s.arrived.length ∧ s.connected = true := by
  have hone := h.posted_length
  obtain ⟨r, hr, hn, -⟩ := he
  obtain ⟨rs, hrs⟩ := List.head?_eq_some_iff.mp hr
  obtain rfl : rs = [] := by
    rw [hrs, List.length_cons] at hone
    exact List.length_eq_zero_iff.mp (by omega)
  exact ⟨r, hrs, hn, h.connected (by rw [hrs]; simp)⟩

-- What else a step changes does not concern the reads.
lemma Reads.of_same {t : Endpoint} (hposted : t.posted = s.posted) (hpacket : t.readPacket = s.readPacket)
    (htaken : t.taken = s.taken) (harrived : t.arrived = s.arrived)
    (hconnected : t.connected = s.connected) : Reads calm frames t k := by
  have hconsumed : t.consumed = s.consumed := by rw [consumed, consumed, htaken, harrived]
  refine ⟨by rw [hposted, hconnected]; exact h.connected, by rw [htaken, harrived]; exact h.taken,
    by rw [harrived]; exact h.arrived, h.count, ?_⟩
  cases h.synced with
  | unopened hn hp ht hk =>
    exact .unopened (hconnected.trans hn) (hposted.trans hp) (htaken.trans ht) hk
  | header hp hc => exact .header (hposted.trans hp) (hconsumed.trans hc)
  | body q hq hp hc hlen htype =>
    exact .body q hq (hposted.trans hp) (hconsumed.trans hc) (by rw [hpacket]; exact hlen)
      (by rw [hpacket]; exact htype)
  | stopped hn hp hc => exact .stopped (hconnected.trans hn) (hposted.trans hp) hc

lemma Reads.arrive {bytes : Bytes} (hb : s.arrived ++ bytes <+: frames.flatMap frame) :
    Reads calm frames { s with arrived := s.arrived ++ bytes } k := by
  have hconsumed : consumed { s with arrived := s.arrived ++ bytes } = s.consumed :=
    consumed_arrive h.taken bytes
  refine ⟨h.connected, ?_, hb, h.count, ?_⟩
  · rw [List.length_append]
    exact Nat.le_add_right_of_le h.taken
  · cases h.synced with
    | unopened hn hp ht hk => exact .unopened hn hp ht hk
    | header hp hc => exact .header hp (hconsumed.trans hc)
    | body q hq hp hc hlen htype => exact .body q hq hp (hconsumed.trans hc) hlen htype
    | stopped hn hp hc => exact .stopped hn hp hc

lemma Reads.fail {t : Endpoint} (hposted : t.posted = []) (hconnected : t.connected = true)
    (htaken : t.taken ≤ t.arrived.length) (harrived : t.arrived = s.arrived) (hc : ¬ calm) :
    Reads calm frames t k where
  connected hp := (hp hposted).elim
  taken := htaken
  arrived := by
    rw [harrived]
    exact h.arrived
  count := h.count
  synced := .stopped hconnected hposted hc

lemma Reads.next {n : ℕ} {xs ys : Bytes} (hn : s.taken + n ≤ s.arrived.length)
    (hc : s.consumed = xs) (hall : frames.flatMap frame = xs ++ ys) :
    (s.arrived.drop s.taken).take n <+: ys ∧ ((s.arrived.drop s.taken).take n).length = n := by
  constructor
  · have hp : s.consumed ++ (s.arrived.drop s.taken).take n <+: frames.flatMap frame := by
      rw [← consumed_add]
      exact (List.take_prefix _ _).trans h.arrived
    rwa [hc, hall, List.prefix_append_right_inj] at hp
  · rw [List.length_take, List.length_drop]
    omega

lemma Reads.header_next (hsend : ∀ q ∈ frames, q.2.length ≤ maxBodyLength)
    (hp : s.posted = [.header]) {n : ℕ} (he : Event.CanOccur s (.read false n)) :
    (s.received .header n).decodeHeader.2 = true ∧ ∀ t : Endpoint, t.posted = [.body] →
      t.readPacket = (s.received .header n).decodeHeader.1 → t.taken = s.taken + n →
      t.arrived = s.arrived → t.connected = s.connected → Reads calm frames t k := by
  obtain ⟨r, hr, hn, hlen⟩ := he
  obtain rfl : PendingRead.header = r := by simpa [hp] using hr
  have hfive : n = headerLength := hlen
  have hc : s.consumed = (frames.take k).flatMap frame := by
    cases h.synced with
    | unopened _ hp' => rw [hp] at hp'; cases hp'
    | header _ hc => exact hc
    | body _ _ hp' => rw [hp] at hp'; cases hp'
    | stopped _ hp' => rw [hp] at hp'; cases hp'
  obtain ⟨hbytes, hlength⟩ := h.next hn hc (flatMap_frame_split frames k)
  obtain ⟨q, hq⟩ : ∃ q, frames[k]? = some q := by
    by_contra hnone
    have hdrop : frames.drop k = [] := by
      rw [List.drop_eq_nil_iff]
      by_contra hlt
      exact hnone ⟨_, List.getElem?_eq_getElem (not_le.mp hlt)⟩
    rw [hdrop, List.flatMap_nil, List.prefix_nil] at hbytes
    rw [hbytes, hfive] at hlength
    cases hlength
  have hle := hsend q (List.mem_of_getElem? hq)
  have heq : (s.arrived.drop s.taken).take n = header q.1 q.2.length := by
    rw [flatMap_frame_drop hq, frame, List.append_assoc] at hbytes
    refine (List.prefix_of_prefix_length_le hbytes (List.prefix_append _ _) ?_).eq_of_length ?_
    · rw [hlength, hfive, header_length _ hle]
    · rw [hlength, hfive, header_length _ hle]
  have htake : (s.received .header n).data.take headerLength = header q.1 q.2.length := by
    rw [received, heq, ← header_length q.1 hle]
    exact store_take (by rw [header_length q.1 hle]; exact Nat.le_add_right _ _)
  have hdecode := decodeHeader_header hle htake
  refine ⟨by rw [hdecode], fun t hposted hpacket htaken harrived hconnected => ?_⟩
  rw [hdecode] at hpacket
  refine ⟨fun _ => ?_, ?_, by rw [harrived]; exact h.arrived, h.count, .body q hq hposted ?_ ?_ ?_⟩
  · rw [hconnected]
    exact h.connected (by rw [hp]; simp)
  · rw [htaken, harrived]
    exact hn
  · rw [consumed, harrived, htaken, consumed_add, hc, heq]
  · rw [hpacket]
  · rw [hpacket]

lemma Reads.body_next (hsend : ∀ q ∈ frames, q.2.length ≤ maxBodyLength)
    (hp : s.posted = [.body]) {n : ℕ} (he : Event.CanOccur s (.read false n)) :
    ∃ q, frames[k]? = some q ∧ (s.received .body n).type = q.1.code ∧
      q.2 <+: (s.received .body n).body ∧ ∀ t : Endpoint, t.posted = [.header] →
      t.taken = s.taken + n → t.arrived = s.arrived → t.connected = s.connected →
        Reads calm frames t (k + 1) := by
  obtain ⟨r, hr, hn, hlen⟩ := he
  obtain rfl : PendingRead.body = r := by simpa [hp] using hr
  obtain ⟨q, hq, hc, hbody, htype⟩ : ∃ q, frames[k]? = some q ∧
      s.consumed = (frames.take k).flatMap frame ++ header q.1 q.2.length ∧
      s.readPacket.bodyLength = q.2.length ∧ s.readPacket.type = q.1.code := by
    cases h.synced with
    | unopened _ hp' => rw [hp] at hp'; cases hp'
    | header hp' => rw [hp] at hp'; cases hp'
    | body q hq _ hc hbody htype => exact ⟨q, hq, hc, hbody, htype⟩
    | stopped _ hp' => rw [hp] at hp'; cases hp'
  have hcount : n = q.2.length := hlen.trans hbody
  have hsplit := flatMap_frame_split frames k
  rw [flatMap_frame_drop hq, frame, List.append_assoc, ← List.append_assoc] at hsplit
  obtain ⟨hbytes, hlength⟩ := h.next hn hc hsplit
  have heq : (s.arrived.drop s.taken).take n = q.2 := by
    refine (List.prefix_of_prefix_length_le hbytes (List.prefix_append _ _) ?_).eq_of_length ?_
    · rw [hlength, hcount]
    · rw [hlength, hcount]
  refine ⟨q, hq, htype, ?_, fun t hposted htaken harrived hconnected => ?_⟩
  · rw [received, heq]
    exact List.prefix_iff_eq_take.mpr (store_body (hsend q (List.mem_of_getElem? hq))).symm
  · refine ⟨fun _ => ?_, ?_, by rw [harrived]; exact h.arrived, ?_, .header hposted ?_⟩
    · rw [hconnected]
      exact h.connected (by rw [hp]; simp)
    · rw [htaken, harrived]
      exact hn
    · exact (List.getElem?_eq_some_iff.mp hq).1
    · rw [consumed, harrived, htaken, consumed_add, hc, heq, flatMap_frame_take_succ hq, frame,
        List.append_assoc]

lemma Reads.open_next (hno : s.connected = false) :
    s.posted = [] ∧ k = 0 ∧ ∀ t : Endpoint, t.posted = [.header] → t.connected = true →
      t.taken = s.taken → t.arrived = s.arrived → Reads calm frames t k := by
  have hposted : s.posted = [] := by
    by_contra hp
    have hopen := h.connected hp
    rw [hno] at hopen
    cases hopen
  obtain ⟨ht, rfl⟩ : s.taken = 0 ∧ k = 0 := by
    cases h.synced with
    | unopened _ _ ht hk => exact ⟨ht, hk⟩
    | header hp => rw [hposted] at hp; cases hp
    | body _ _ hp => rw [hposted] at hp; cases hp
    | stopped hopen => rw [hno] at hopen; cases hopen
  refine ⟨hposted, rfl, fun t hposted hconnected htaken harrived => ?_⟩
  refine ⟨fun _ => hconnected, by rw [htaken, harrived]; exact h.taken,
    by rw [harrived]; exact h.arrived, h.count, .header hposted ?_⟩
  rw [consumed, htaken, ht]
  rfl

lemma Reads.all (hsend : ∀ q ∈ frames, q.2.length ≤ maxBodyLength) (hcalm : calm)
    (hopen : s.connected = true) (hend : s.arrived = frames.flatMap frame)
    (hidle : ∀ n, ¬ Event.CanOccur s (.read false n)) :
    k = frames.length ∧ s.posted = [.header] ∧ s.consumed = frames.flatMap frame := by
  have hlength := consumed_length h.taken
  have hsplit := flatMap_frame_split frames k
  cases h.synced with
  | unopened hn => rw [hopen] at hn; cases hn
  | stopped _ _ hc => exact (hc hcalm).elim
  | header hp hc =>
    by_cases hk : k = frames.length
    · rw [hk, List.take_length] at hc
      exact ⟨hk, hp, hc⟩
    · obtain ⟨q, hq⟩ : ∃ q, frames[k]? = some q :=
        ⟨_, List.getElem?_eq_getElem (Nat.lt_of_le_of_ne h.count hk)⟩
      have hle := hsend q (List.mem_of_getElem? hq)
      rw [flatMap_frame_drop hq, frame, List.append_assoc] at hsplit
      refine (hidle headerLength ⟨.header, by rw [hp]; rfl, ?_, rfl⟩).elim
      rw [hend, hsplit, ← hlength, hc]
      simp only [List.length_append, header_length q.1 hle]
      omega
  | body q hq hp hc hbody =>
    rw [flatMap_frame_drop hq, frame, List.append_assoc] at hsplit
    refine (hidle q.2.length ⟨.body, by rw [hp]; rfl, ?_, hbody.symm⟩).elim
    rw [hend, hsplit, ← hlength, hc]
    simp only [List.length_append]
    omega

end

end WordModel.Endpoint
