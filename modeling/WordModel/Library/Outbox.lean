import WordModel.Library.Checked

/-! A queue of messages that are written one after the other, where a write is started when
the one before it has succeeded. However the writes come along, what has gone out is always
the beginning of what was pushed. -/

namespace WordModel

open Checked

structure Transfer where
  address : ℕ
  sent : ℕ

-- A message stays where it is until it is popped: its address is how many were pushed before it.
structure Outbox (α β : Type) where
  queue : List α
  popped : ℕ
  writes : List Transfer
  out : List β

namespace Outbox

variable {κ α β : Type} {c c' : κ}

def empty : Outbox α β := ⟨[], 0, [], []⟩

def write (c : κ) (s : Outbox α β) : Exec κ (Outbox α β) := do
  let _ ← fetch c s.queue 0
  return { s with writes := s.writes ++ [⟨s.popped, 0⟩] }

def push (c : κ) (s : Outbox α β) (xs : List α) : Exec κ (Outbox α β) :=
  let busy := !s.queue.isEmpty
  let s := { s with queue := s.queue ++ xs }
  if !busy then s.write c else .ok s

def onWritten (c : κ) (s : Outbox α β) (ec : Bool) : Exec κ (Outbox α β) :=
  if !ec then do
    let (_, queue) ← popFront c s.queue
    let s := { s with queue := queue, popped := s.popped + 1 }
    if !s.queue.isEmpty then s.write c else return s
  else .ok s

def finish (c c' : κ) (s : Outbox α β) (i : ℕ) (ec : Bool) : Exec κ (Outbox α β) := do
  let _ ← fetch c' s.writes i
  onWritten c { s with writes := s.writes.eraseIdx i } ec

variable (bytes : α → List β)

def transmit (c c' : κ) (s : Outbox α β) (i n : ℕ) : Exec κ (Outbox α β) := do
  let t ← fetch c' s.writes i
  if t.address < s.popped then .error (.outOfRange c t.address s.popped)
  else do
    let x ← fetch c s.queue (t.address - s.popped)
    let chunk := ((bytes x).drop t.sent).take n
    return { s with
      writes := s.writes.set i ⟨t.address, t.sent + chunk.length⟩
      out := s.out ++ chunk }

def Sent (s : Outbox α β) (i : ℕ) : Prop :=
  ∃ t x, s.writes[i]? = some t ∧ s.queue[t.address - s.popped]? = some x ∧
    (bytes x).length ≤ t.sent

/-- A write has failed: the queue is never empty again, and nothing more is written. -/
def Stalled (s : Outbox α β) : Prop := s.writes = [] ∧ s.queue ≠ []

/-- At any time the messages at the front are out, and of the next one some part. -/
inductive Flows (s : Outbox α β) : List α → Prop
  | idle {pushed} : s.queue = [] → s.writes = [] → s.popped = pushed.length →
      s.out = pushed.flatMap bytes → Flows s pushed
  | writing {done x rest sent} : s.queue = x :: rest → s.writes = [⟨s.popped, sent⟩] →
      s.popped = done.length → sent ≤ (bytes x).length →
      s.out = done.flatMap bytes ++ (bytes x).take sent → Flows s (done ++ x :: rest)
  | stalled {done x rest sent} : s.queue = x :: rest → s.writes = [] → s.popped = done.length →
      s.out = done.flatMap bytes ++ (bytes x).take sent → Flows s (done ++ x :: rest)

/-- Each push, each byte that goes out and each write that succeeds counts for one. -/
def progress (s : Outbox α β) : ℕ := s.out.length + (2 * s.popped + s.queue.length)

lemma empty_flows : Flows bytes (empty : Outbox α β) [] := .idle rfl rfl rfl rfl

variable {bytes} {s : Outbox α β} {pushed : List α}

lemma Flows.out_prefix (h : Flows bytes s pushed) : s.out <+: pushed.flatMap bytes := by
  have hpart (done : List α) (x : α) (rest : List α) (sent : ℕ) :
      done.flatMap bytes ++ (bytes x).take sent <+: (done ++ x :: rest).flatMap bytes := by
    rw [List.flatMap_append, List.prefix_append_right_inj, List.flatMap_cons]
    exact (List.take_prefix _ _).trans (List.prefix_append _ _)
  cases h with
  | idle _ _ _ hout =>
    exact hout ▸ List.prefix_rfl
  | writing _ _ _ _ hout =>
    rw [hout]
    exact hpart _ _ _ _
  | stalled _ _ _ hout =>
    rw [hout]
    exact hpart _ _ _ _

lemma Flows.out_eq (h : Flows bytes s pushed) (hq : s.queue = []) :
    s.out = pushed.flatMap bytes := by
  cases h with
  | idle _ _ _ hout => exact hout
  | writing hq' => exact (List.cons_ne_nil _ _ (hq'.symm.trans hq)).elim
  | stalled hq' => exact (List.cons_ne_nil _ _ (hq'.symm.trans hq)).elim

lemma Flows.out_eq_of_flowing (h : Flows bytes s pushed) (hf : ¬ s.Stalled) (hw : s.writes = []) :
    s.out = pushed.flatMap bytes := h.out_eq (by
  by_contra hq
  exact hf ⟨hw, hq⟩)

lemma Flows.writes_length (h : Flows bytes s pushed) : s.writes.length ≤ 1 := by
  cases h with
  | idle _ hw => simp [hw]
  | writing _ hw => simp [hw]
  | stalled _ hw => simp [hw]

lemma Flows.push (c : κ) {xs : List α} (hxs : xs ≠ []) (h : Flows bytes s pushed) :
    ∃ t, s.push c xs = .ok t ∧ Flows bytes t (pushed ++ xs) ∧ t.out = s.out ∧
      (t.Stalled ↔ s.Stalled) := by
  cases h with
  | idle hq hw hp hout =>
    obtain ⟨x, xs, rfl⟩ := List.exists_cons_of_ne_nil hxs
    refine ⟨{ s with queue := x :: xs, writes := [⟨s.popped, 0⟩] }, ?_, ?_, rfl, ?_⟩
    · simp [Outbox.push, write, fetch, hq, hw]
    · exact .writing rfl rfl hp (Nat.zero_le _) (by rw [hout, List.take_zero, List.append_nil])
    · exact ⟨fun ht => (List.cons_ne_nil _ _ ht.1).elim, fun hs => (hs.2 hq).elim⟩
  | @writing done x rest sent hq hw hp hle hout =>
    refine ⟨{ s with queue := s.queue ++ xs }, by simp [Outbox.push, hq], ?_, rfl, ?_⟩
    · rw [List.append_assoc, List.cons_append]
      exact .writing (by rw [hq, List.cons_append]) hw hp hle hout
    · exact ⟨fun ht => (List.cons_ne_nil _ _ (hw.symm.trans ht.1)).elim,
        fun hs => (List.cons_ne_nil _ _ (hw.symm.trans hs.1)).elim⟩
  | @stalled done x rest sent hq hw hp hout =>
    refine ⟨{ s with queue := s.queue ++ xs }, by simp [Outbox.push, hq], ?_, rfl, ?_⟩
    · rw [List.append_assoc, List.cons_append]
      exact .stalled (by rw [hq, List.cons_append]) hw hp hout
    · exact ⟨fun _ => ⟨hw, by simp [hq]⟩, fun _ => ⟨hw, by simp [hq]⟩⟩

lemma Flows.of_write (h : Flows bytes s pushed) {i : ℕ} {t : Transfer} (ht : s.writes[i]? = some t) :
    ∃ done x rest, i = 0 ∧ pushed = done ++ x :: rest ∧ s.queue = x :: rest ∧ s.writes = [t] ∧
      t.address = s.popped ∧ t.sent ≤ (bytes x).length ∧
      s.out = done.flatMap bytes ++ (bytes x).take t.sent ∧ s.popped = done.length := by
  cases h with
  | idle _ hw => rw [hw] at ht; cases ht
  | stalled _ hw => rw [hw] at ht; cases ht
  | @writing done x rest sent hq hw hp hle hout =>
    obtain rfl : i = 0 := by
      by_contra hi
      rw [hw, List.getElem?_eq_none (by simpa using Nat.one_le_iff_ne_zero.mpr hi)] at ht
      cases ht
    rw [hw, List.getElem?_cons_zero, Option.some.injEq] at ht
    subst ht
    exact ⟨done, x, rest, rfl, rfl, hq, hw, rfl, hle, hout, hp⟩

lemma Flows.transmit (c c' : κ) (h : Flows bytes s pushed) {i : ℕ} (hi : i < s.writes.length)
    (n : ℕ) :
    ∃ t, s.transmit bytes c c' i n = .ok t ∧ Flows bytes t pushed ∧ s.out <+: t.out ∧
      ¬ t.Stalled := by
  have hget := List.getElem?_eq_getElem hi
  generalize s.writes[i] = t at hget
  obtain ⟨done, x, rest, rfl, rfl, hq, hw, ha, hle, hout, hp⟩ := h.of_write hget
  have hfetch : fetch c s.queue (t.address - s.popped) = .ok x := by
    rw [ha, Nat.sub_self, hq]
    rfl
  refine ⟨{ s with
    writes := s.writes.set 0 ⟨t.address, t.sent + (((bytes x).drop t.sent).take n).length⟩
    out := s.out ++ ((bytes x).drop t.sent).take n }, ?_, ?_, List.prefix_append _ _, ?_⟩
  · rw [Outbox.transmit, fetch_of_getElem? hget, ok_bind, if_neg (by omega), hfetch]
    rfl
  · refine .writing hq (by rw [hw, ha]; rfl) hp ?_ ?_
    · rw [List.length_take, List.length_drop]
      omega
    · rw [hout, List.append_assoc, List.length_take, ← List.take_add]
      rcases Nat.le_total n ((bytes x).drop t.sent).length with hn | hn
      · rw [Nat.min_eq_left hn]
      · rw [Nat.min_eq_right hn, List.length_drop, List.take_of_length_le, List.take_of_length_le]
        · omega
        · rw [List.length_drop] at hn
          omega
  · intro ht
    have hnil := ht.1
    rw [hw] at hnil
    cases hnil

lemma Flows.finish (c c' : κ) (h : Flows bytes s pushed) {i : ℕ} {ec : Bool} (hi : i < s.writes.length)
    (hsent : ec = false → s.Sent bytes i) :
    ∃ t, s.finish c c' i ec = .ok t ∧ Flows bytes t pushed ∧ t.out = s.out ∧
      (t.Stalled ↔ ec = true) := by
  have hget := List.getElem?_eq_getElem hi
  generalize s.writes[i] = t at hget
  obtain ⟨done, x, rest, rfl, rfl, hq, hw, ha, hle, hout, hp⟩ := h.of_write hget
  have herase : s.writes.eraseIdx 0 = [] := by rw [hw]; rfl
  rw [Outbox.finish, fetch_of_getElem? hget, ok_bind, herase]
  cases ec with
  | true =>
    refine ⟨_, rfl, .stalled hq rfl hp hout, rfl, fun _ => rfl, fun _ => ⟨rfl, ?_⟩⟩
    rw [hq]
    exact List.cons_ne_nil _ _
  | false =>
    have hall : s.out = (done ++ [x]).flatMap bytes := by
      obtain ⟨t', x', ht', hx', hlen⟩ := hsent rfl
      rw [hget, Option.some.injEq] at ht'
      subst ht'
      rw [ha, Nat.sub_self, hq, List.getElem?_cons_zero, Option.some.injEq] at hx'
      subst hx'
      rw [hout, List.take_of_length_le hlen, List.flatMap_append, List.flatMap_singleton]
    cases rest with
    | nil =>
      refine ⟨{ s with queue := [], popped := s.popped + 1, writes := [] }, ?_, ?_, rfl, ?_⟩
      · simp [onWritten, popFront, hq]
      · exact .idle rfl rfl (by simp [hp]) hall
      · exact ⟨fun ht => (ht.2 rfl).elim, fun hc => by cases hc⟩
    | cons y rest =>
      refine ⟨{ s with
        queue := y :: rest
        popped := s.popped + 1
        writes := [⟨s.popped + 1, 0⟩] }, ?_, ?_, rfl,
        fun ht => (List.cons_ne_nil _ _ ht.1).elim, fun hc => by cases hc⟩
      · simp [onWritten, popFront, write, fetch, hq]
      · rw [List.append_cons]
        refine .writing rfl rfl (by simp [hp]) (Nat.zero_le _) ?_
        rw [List.take_zero, List.append_nil]
        exact hall

lemma progress_push {c : κ} {xs : List α} {t : Outbox α β} (h : s.push c xs = .ok t) :
    t.progress = s.progress + xs.length := by
  have hpushed : t.out = s.out ∧ t.popped = s.popped ∧ t.queue = s.queue ++ xs := by
    rw [push] at h
    split at h
    · obtain ⟨_, _, h⟩ := bind_eq_ok.mp h
      obtain rfl := Except.ok.inj h
      exact ⟨rfl, rfl, rfl⟩
    · obtain rfl := Except.ok.inj h
      exact ⟨rfl, rfl, rfl⟩
  obtain ⟨hout, hpopped, hqueue⟩ := hpushed
  rw [progress, progress, hout, hpopped, hqueue, List.length_append]
  omega

lemma progress_transmit {c c' : κ} {i n : ℕ} {t : Outbox α β}
    (h : s.transmit bytes c c' i n = .ok t) :
    (t.queue = s.queue ∧ t.popped = s.popped) ∧ (t = s ∨ s.out.length < t.out.length) := by
  rw [transmit] at h
  obtain ⟨a, ha, h⟩ := bind_eq_ok.mp h
  split at h
  · cases h
  · obtain ⟨x, _, h⟩ := bind_eq_ok.mp h
    obtain rfl := Except.ok.inj h
    refine ⟨⟨rfl, rfl⟩, ?_⟩
    cases hchunk : ((bytes x).drop a.sent).take n with
    | nil =>
      left
      obtain ⟨hi, rfl⟩ := List.getElem?_eq_some_iff.mp (fetch_eq_ok.mp ha)
      rw [List.append_nil, List.length_nil, Nat.add_zero, List.set_getElem_self hi]
    | cons b chunk =>
      right
      rw [List.length_append, List.length_cons]
      omega

lemma progress_finish {c c' : κ} {i : ℕ} {t : Outbox α β} (h : s.finish c c' i false = .ok t) :
    t.progress = s.progress + 1 := by
  obtain ⟨_, _, h⟩ := bind_eq_ok.mp h
  rw [onWritten] at h
  obtain ⟨⟨x, queue⟩, hpop, h⟩ := bind_eq_ok.mp h
  have hqueue : s.queue = x :: queue := popFront_eq_ok.mp hpop
  have hfinished : t.out = s.out ∧ t.popped = s.popped + 1 ∧ t.queue = queue := by
    dsimp only at h
    split at h
    · obtain ⟨_, _, h⟩ := bind_eq_ok.mp h
      obtain rfl := Except.ok.inj h
      exact ⟨rfl, rfl, rfl⟩
    · obtain rfl := Except.ok.inj h
      exact ⟨rfl, rfl, rfl⟩
  obtain ⟨hout, hpopped, hrest⟩ := hfinished
  rw [progress, progress, hout, hpopped, hrest, hqueue, List.length_cons]
  omega

lemma Flows.moves (h : Flows bytes s pushed) {i : ℕ} (hi : i < s.writes.length) :
    s.Sent bytes i ∨ ∀ {c c' : κ} {t}, s.transmit bytes c c' i 1 = .ok t → t ≠ s := by
  have hget := List.getElem?_eq_getElem hi
  generalize s.writes[i] = a at hget
  obtain ⟨done, x, rest, rfl, rfl, hq, hw, ha, -, -, -⟩ := h.of_write hget
  have hx : s.queue[a.address - s.popped]? = some x := by
    rw [ha, Nat.sub_self, hq]
    rfl
  rcases Nat.lt_or_ge a.sent (bytes x).length with hlt | hle
  · right
    rintro c c' t ht rfl
    rw [Outbox.transmit, fetch_of_getElem? hget, ok_bind, if_neg (by omega),
      fetch_of_getElem? hx] at ht
    have hout := congrArg (List.length ∘ out) (Except.ok.inj ht)
    simp only [Function.comp_apply, List.length_append, List.length_take, List.length_drop] at hout
    omega
  · exact Or.inl ⟨a, x, hget, hx, hle⟩

lemma Flows.progress_le (h : Flows bytes s pushed) (hbytes : ∀ x, 2 ≤ (bytes x).length) :
    s.progress ≤ 2 * (pushed.flatMap bytes).length := by
  have hpushed (xs : List α) : 2 * xs.length ≤ (xs.flatMap bytes).length := by
    induction xs with
    | nil => exact Nat.zero_le _
    | cons x xs ih =>
      have := hbytes x
      rw [List.flatMap_cons, List.length_append, List.length_cons]
      omega
  have hcount : s.popped + s.queue.length = pushed.length := by
    cases h with
    | idle hq _ hp => rw [hq, hp, List.length_nil, Nat.add_zero]
    | writing hq _ hp => rw [hq, hp, List.length_append]
    | stalled hq _ hp => rw [hq, hp, List.length_append]
  have hout := h.out_prefix.length_le
  have := hpushed pushed
  rw [progress]
  omega

end Outbox

end WordModel
