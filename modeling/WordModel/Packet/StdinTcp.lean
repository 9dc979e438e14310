import WordModel.Library.Stretches
import WordModel.Packet.Basic

/-! The client that reads words character by character, and sends each of them for a
prediction when a space is reached. -/

namespace WordModel.StdinTcp

open Checked Decimal Packet Stretches

inductive Buffer where
  | word
  deriving DecidableEq, Repr

structure Reader where
  word : Bytes
  readCount : ℕ
  queued : List Packet

/-- The array `word` as the declaration leaves it. -/
def start (memory : Fin (maxBodyLength + 1) → UInt8) : Reader := ⟨List.ofFn memory, 0, []⟩

-- `blank` is what a new packet finds in its memory.
def readChar (blank : ℕ → Packet) (s : Reader) (c : UInt8) : Exec Buffer Reader :=
  if isSpace c then
    if 0 < s.readCount then do
      let word ← update .word s.word s.readCount (fun _ => c)
      let word ← update .word word (s.readCount + 1) (fun _ => 0)
      let p := ((blank s.queued.length).setType .predict).setBodyLength (s.readCount + 2)
      let p := (p.store headerLength (word.take p.bodyLength)).encodeHeader
      return ⟨word, 0, s.queued ++ [p]⟩
    else .ok s
  else do
    let word ← update .word s.word s.readCount (fun _ => c)
    return { s with word := word, readCount := s.readCount + 1 }

-- `(char)EOF`: the stream ends only once `get` has failed, so that its last value is read too.
def eof : UInt8 := 255

def readLoop (blank : ℕ → Packet) (s : Reader) : Bytes → Exec Buffer Reader
  | [] => readChar blank s eof
  | c :: cs => do
    let s ← readChar blank s c
    readLoop blank s cs

def Asks (r : Bytes × Option UInt8) (p : Packet) : Prop :=
  p.type = PacketType.predict.code ∧
    ∃ c, r.2 = some c ∧ p.body.take p.bodyLength = r.1 ++ [c, 0]

/-- The run is ended by a space, and a packet takes it. -/
def Fits (r : Bytes × Option UInt8) : Prop :=
  r.2.isSome ∧ r.1.length + 2 ≤ maxBodyLength

lemma fits_of_runs_eq {stream : Bytes} {r : Bytes × Option UInt8}
    (hruns : runs isSpace stream = [r]) (h : Fits r) : ∀ r ∈ runs isSpace stream, Fits r := by
  rw [hruns, List.forall_mem_singleton]
  exact h

lemma Asks.fits {r : Bytes × Option UInt8} {p : Packet} (h : Asks r p) : Fits r := by
  obtain ⟨-, c, hc, hbody⟩ := h
  have hlen := congrArg List.length hbody
  rw [List.length_take, List.length_append] at hlen
  refine ⟨by rw [hc]; rfl, Nat.le_trans ?_ p.bodyLength_le⟩
  simp only [List.length_cons, List.length_nil] at hlen
  omega

lemma asks_compose (p : Packet) {w : Bytes} (c : UInt8) (h : w.length + 2 ≤ maxBodyLength) :
    Asks (w, some c) (compose p .predict (w ++ [c, 0])) := by
  have hlen : (w ++ [c, 0]).length ≤ maxBodyLength := by simpa using h
  refine ⟨rfl, c, rfl, ?_⟩
  rw [body_take, compose_wire _ _ hlen, ← header_length .predict hlen, List.drop_left]

structure Reading (w : Bytes) (s : Reader) : Prop where
  size : s.word.length = maxBodyLength + 1
  readCount : s.readCount = w.length
  word : w <+: s.word
  nonspace : ∀ c ∈ w, isSpace c = false

lemma reading_start (memory : Fin (maxBodyLength + 1) → UInt8) : Reading [] (start memory) where
  size := by rw [start, List.length_ofFn]
  readCount := rfl
  word := List.nil_prefix
  nonspace := by simp

section

variable (blank : ℕ → Packet) {w : Bytes} {s : Reader} (h : Reading w s)

include h

lemma Reading.readChar_word {c : UInt8} (hc : isSpace c = false) (hlen : w.length ≤ maxBodyLength) :
    ∃ t, readChar blank s c = .ok t ∧ t.queued = s.queued ∧ Reading (w ++ [c]) t := by
  have hsize := h.size
  obtain ⟨word, hword, hsame, hextends⟩ := update_extends (c := Buffer.word) h.word (by omega) c
  rw [← h.readCount] at hword
  refine ⟨{ s with word := word, readCount := s.readCount + 1 }, ?_, rfl, ?_⟩
  · rw [readChar, if_neg (by simp [hc]), hword]
    rfl
  · exact ⟨hsame.trans h.size, by simp [h.readCount], hextends,
      by simpa [or_imp, forall_and, hc] using h.nonspace⟩

lemma Reading.readChar_space {c : UInt8} (hc : isSpace c = true) (hne : w ≠ [])
    (hfits : w.length + 2 ≤ maxBodyLength) : ∃ t, readChar blank s c = .ok t ∧
      t.queued = s.queued ++ [compose (blank s.queued.length) .predict (w ++ [c, 0])] ∧
      Reading [] t := by
  have hsize := h.size
  obtain ⟨word, hword, hsame, hextends⟩ := update_extends (c := Buffer.word) h.word (by omega) c
  obtain ⟨word', hword', hsame', hextends'⟩ := update_extends (c := Buffer.word) hextends
    (by rw [List.length_append, List.length_singleton]; omega) 0
  rw [List.length_append, List.length_singleton, ← h.readCount] at hword'
  rw [← h.readCount] at hword
  have hpos : 0 < s.readCount := by
    rw [h.readCount]
    exact List.length_pos_iff.mpr hne
  have hcount : (w ++ [c, 0]).length = s.readCount + 2 := by simp [h.readCount]
  have hlen : ¬ maxBodyLength < s.readCount + 2 := by
    rw [h.readCount]
    omega
  have htake : word'.take (s.readCount + 2) = w ++ [c, 0] := by
    rw [List.append_assoc] at hextends'
    rw [← hcount]
    exact (List.prefix_iff_eq_take.mp hextends').symm
  refine ⟨⟨word', 0, _⟩, ?_, rfl, hsame'.trans (hsame.trans h.size), rfl, List.nil_prefix, by simp⟩
  rw [readChar, if_pos hc, if_pos hpos, hword, ok_bind, hword', ok_bind]
  simp only [setBodyLength, if_neg hlen, htake]
  rw [compose, setBodyLength, hcount]
  simp only [if_neg hlen]
  rfl

end

lemma readLoop_of_fits (blank : ℕ → Packet) {w stream : Bytes} {s : Reader} (h : Reading w s)
    (hfits : ∀ r ∈ runs isSpace (w ++ stream), Fits r) : ∃ t ps,
      readLoop blank s stream = .ok t ∧ t.queued = s.queued ++ ps ∧
      List.Forall₂ Asks (runs isSpace (w ++ stream)) ps := by
  induction stream generalizing w s with
  | nil =>
    -- what is left open at the end would be a run that nothing ends
    rw [List.append_nil, runs_of_forall h.nonspace] at hfits ⊢
    cases w with
    | nil =>
      obtain ⟨t, ht, hqueued, -⟩ := h.readChar_word blank (c := eof) (by decide) (Nat.zero_le _)
      exact ⟨t, [], ht, by rw [hqueued, List.append_nil], .nil⟩
    | cons x w => exact absurd (hfits _ (List.mem_singleton_self _)).1 (by simp)
  | cons c stream ih =>
    by_cases hc : isSpace c = true
    · rw [runs_append_cons h.nonspace hc] at hfits ⊢
      cases w with
      | nil =>
        obtain ⟨t, ps, ht, hqueued, hall⟩ := ih h hfits
        refine ⟨t, ps, ?_, hqueued, hall⟩
        rw [readLoop, readChar, if_pos hc, if_neg (by simp [h.readCount])]
        exact ht
      | cons x w =>
        have hfirst := (hfits (x :: w, some c) (by simp)).2
        obtain ⟨m, hm, hqueued, hreading⟩ := h.readChar_space blank hc (by simp) hfirst
        obtain ⟨t, ps, ht, hps, hall⟩ := ih hreading
          (fun r hr => hfits r (List.mem_append_right _ hr))
        refine ⟨t, _ :: ps, ?_, ?_, .cons (asks_compose (blank s.queued.length) c hfirst) hall⟩
        · rw [readLoop, hm]
          exact ht
        · rw [hps, hqueued, List.append_assoc, List.singleton_append]
    · rw [List.append_cons] at hfits ⊢
      have hlen : w.length ≤ maxBodyLength := by
        obtain ⟨r, hr, hle⟩ := exists_run (p := isSpace) (w := w ++ [c])
          (by simpa [or_imp, forall_and, hc] using h.nonspace) (by simp) stream
        have hr' := (hfits r hr).2
        rw [List.length_append] at hle
        omega
      obtain ⟨m, hm, hqueued, hreading⟩ := h.readChar_word blank (by simpa using hc) hlen
      obtain ⟨t, ps, ht, hps, hall⟩ := ih hreading hfits
      refine ⟨t, ps, ?_, hqueued ▸ hps, hall⟩
      rw [readLoop, hm]
      exact ht

lemma fits_of_asks {rs : List (Bytes × Option UInt8)} {ps : List Packet}
    (h : List.Forall₂ Asks rs ps) : ∀ r ∈ rs, Fits r := by
  induction h with
  | nil => simp
  | cons hasks _ ih => exact List.forall_mem_cons.mpr ⟨hasks.fits, ih⟩

theorem reader_law (blank : ℕ → Packet) (memory : Fin (maxBodyLength + 1) → UInt8)
    (stream : Bytes) :
    (∃ s, readLoop blank (start memory) stream = .ok s ∧
      List.Forall₂ Asks (runs isSpace stream) s.queued) ↔
    ∀ r ∈ runs isSpace stream, Fits r := by
  constructor
  · rintro ⟨s, -, hall⟩
    exact fits_of_asks hall
  · intro hfits
    obtain ⟨t, ps, ht, hqueued, hall⟩ := readLoop_of_fits blank (reading_start memory) hfits
    exact ⟨t, ht, by rwa [hqueued]⟩

theorem reader_law_fails : ¬ ∃ s,
    readLoop (fun _ => fresh (List.replicate 517 0) List.length_replicate) (start fun _ => 0)
      (List.replicate 512 97 ++ [32]) = .ok s ∧
    List.Forall₂ Asks (runs isSpace (List.replicate 512 97 ++ [32])) s.queued := by
  -- the NUL after 512 letters and the space is written past the end of `word`
  rintro ⟨s, -, hall⟩
  have hletters : ∀ x ∈ List.replicate 512 (97 : UInt8), isSpace x = false := by
    intro x hx
    rw [List.eq_of_mem_replicate hx]
    rfl
  obtain ⟨r, hr, hle⟩ := exists_run hletters (List.cons_ne_nil _ _) [32]
  have hfits := (fits_of_asks hall r hr).2
  rw [List.length_replicate] at hle
  have : maxBodyLength = 512 := rfl
  omega

end WordModel.StdinTcp
