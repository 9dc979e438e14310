import WordModel.Library.Framing
import WordModel.NodeJs.Packet
import Mathlib.Data.List.SplitLengths

/-! The client's `data` handler, and the server's replies however the stream cuts them. -/

namespace WordModel.NodeJs

open Decimal Javascript Framing

inductive Callback where
  | prediction (string : Bytes)
  | summary (string : Bytes)
  | train (string : Bytes)
  deriving DecidableEq

def callbacks (p : Decoded) : List Callback :=
  (if p.type = some (packetNumber .prediction : ℚ) then [.prediction p.string] else []) ++
  (if p.type = some (packetNumber .summary : ℚ) then [.summary p.string] else []) ++
  (if p.type = some (packetNumber .train : ℚ) then [.train p.string] else [])

/-- The handler, if it is through with an event within this many rounds. -/
def onData : ℕ → Bytes → Option (List Callback)
  | 0, _ => none
  | rounds + 1, data =>
    let p := decodePacket data
    if 0 < p.remaining.length then (onData rounds p.remaining).map (callbacks p ++ ·)
    else some (callbacks p)

def onEvents (rounds : ℕ) : List Bytes → Option (List Callback)
  | [] => some []
  | data :: events => do
    let cs ← onData rounds data
    let ds ← onEvents rounds events
    return cs ++ ds

def Calls (events : List Bytes) (cs : List Callback) : Prop :=
  ∃ rounds, onEvents rounds events = some cs

structure Reply where
  type : PacketType
  type_ne : type ≠ .predict
  body : Bytes
  body_ne : body ≠ []
  body_le : body.length ≤ Packet.maxBodyLength

namespace Reply

def bytes (r : Reply) : Bytes := Packet.header r.type r.body.length ++ r.body

def length (r : Reply) : ℕ := r.bytes.length

def shape (r : Reply) : PacketType × ℕ := (r.type, r.body.length)

def callbacks (r : Reply) : List Callback :=
  NodeJs.callbacks ⟨some (packetNumber r.type), Buffer.sevenBit r.body.dropLast, []⟩

lemma wire_eq_bytes (r : Reply) (p : Packet) : (p.compose r.type r.body).wire = r.bytes :=
  Packet.compose_wire p r.type r.body_le

end Reply

/-- The callbacks are those of the packets in events of their own. -/
def SameCallbacks (replies : List Reply) (sizes : List ℕ) : Prop :=
  ∃ cs, Calls (replies.map Reply.bytes) cs ∧
    Calls (sizes.splitLengths (replies.flatMap Reply.bytes)) cs

lemma onData_mono {m n : ℕ} (hmn : m ≤ n) {data : Bytes} {cs : List Callback}
    (h : onData m data = some cs) : onData n data = some cs := by
  induction m generalizing n data cs with
  | zero => cases h
  | succ m ih =>
    obtain ⟨k, rfl⟩ : ∃ k, n = k + 1 := ⟨n - 1, by omega⟩
    rw [onData] at h ⊢
    split at h
    · obtain ⟨ds, hds, rfl⟩ := Option.map_eq_some_iff.mp h
      rw [if_pos ‹_›, ih (by omega) hds]
      rfl
    · rw [if_neg ‹_›]
      exact h

def Handled (data : Bytes) (cs : List Callback) : Prop := ∃ rounds, onData rounds data = some cs

lemma Handled.unique {data : Bytes} {cs ds : List Callback} (h₁ : Handled data cs)
    (h₂ : Handled data ds) : cs = ds := by
  obtain ⟨m, hm⟩ := h₁
  obtain ⟨n, hn⟩ := h₂
  have hm' := onData_mono (Nat.le_max_left m n) hm
  rw [onData_mono (Nat.le_max_right m n) hn, Option.some.injEq] at hm'
  exact hm'.symm

lemma onEvents_mono {m n : ℕ} (hmn : m ≤ n) {events : List Bytes} {cs : List Callback}
    (h : onEvents m events = some cs) : onEvents n events = some cs := by
  induction events generalizing cs with
  | nil => exact h
  | cons data events ih =>
    simp only [onEvents, Option.bind_eq_bind, Option.bind_eq_some_iff] at h ⊢
    obtain ⟨as, has, bs, hbs, hcs⟩ := h
    exact ⟨as, onData_mono hmn has, bs, ih hbs, hcs⟩

lemma calls_nil {cs : List Callback} : Calls [] cs ↔ cs = [] := by
  constructor
  · rintro ⟨_, h⟩
    exact (Option.some.inj h).symm
  · rintro rfl
    exact ⟨0, rfl⟩

lemma calls_cons {data : Bytes} {events : List Bytes} {cs : List Callback} :
    Calls (data :: events) cs ↔ ∃ as bs, Handled data as ∧ Calls events bs ∧ cs = as ++ bs := by
  constructor
  · rintro ⟨rounds, h⟩
    simp only [onEvents, Option.bind_eq_bind, Option.bind_eq_some_iff] at h
    obtain ⟨as, has, bs, hbs, hcs⟩ := h
    exact ⟨as, bs, ⟨rounds, has⟩, ⟨rounds, hbs⟩, (Option.some.inj hcs).symm⟩
  · rintro ⟨as, bs, ⟨m, hm⟩, ⟨n, hn⟩, rfl⟩
    refine ⟨max m n, ?_⟩
    rw [onEvents, onData_mono (Nat.le_max_left m n) hm, onEvents_mono (Nat.le_max_right m n) hn]
    rfl

lemma handled_last {data : Bytes} (h : (decodePacket data).remaining = []) {cs : List Callback} :
    Handled data cs ↔ cs = callbacks (decodePacket data) := by
  constructor
  · rintro ⟨rounds, hr⟩
    cases rounds with
    | zero => cases hr
    | succ rounds =>
      rw [onData, if_neg (by simp [h])] at hr
      exact (Option.some.inj hr).symm
  · rintro rfl
    exact ⟨1, by rw [onData, if_neg (by simp [h])]⟩

lemma handled_more {data : Bytes} (h : (decodePacket data).remaining ≠ []) {cs : List Callback} :
    Handled data cs ↔ ∃ ds, Handled (decodePacket data).remaining ds ∧
      cs = callbacks (decodePacket data) ++ ds := by
  have hpos := List.length_pos_iff.mpr h
  constructor
  · rintro ⟨rounds, hr⟩
    cases rounds with
    | zero => cases hr
    | succ rounds =>
      rw [onData, if_pos hpos] at hr
      obtain ⟨ds, hds, rfl⟩ := Option.map_eq_some_iff.mp hr
      exact ⟨ds, ⟨rounds, hds⟩, rfl⟩
  · rintro ⟨ds, ⟨rounds, hr⟩, rfl⟩
    refine ⟨rounds + 1, ?_⟩
    rw [onData, if_pos hpos, hr]
    rfl

lemma not_handled_of_remaining {data : Bytes} (hne : data ≠ [])
    (h : (decodePacket data).remaining = data) (cs : List Callback) : ¬ Handled data cs := by
  rintro ⟨rounds, hr⟩
  induction rounds generalizing cs with
  | zero => cases hr
  | succ rounds ih =>
    rw [onData, h, if_pos (List.length_pos_iff.mpr hne)] at hr
    obtain ⟨ds, hds, -⟩ := Option.map_eq_some_iff.mp hr
    exact ih ds hds

lemma callbacks_of_handled {data : Bytes} {cs : List Callback} (h : Handled data cs) :
    callbacks (decodePacket data) <+: cs := by
  by_cases hr : (decodePacket data).remaining = []
  · obtain rfl := (handled_last hr).mp h
    exact List.prefix_rfl
  · obtain ⟨ds, -, rfl⟩ := (handled_more hr).mp h
    exact List.prefix_append _ _

lemma number_typeText (type : PacketType) :
    number (Buffer.sevenBit [UInt8.ofNat (48 + packetNumber type)]) =
      some (packetNumber type : ℚ) := by
  obtain ⟨hdigit, hvalue⟩ := typeText type
  have hall : ∀ x ∈ [UInt8.ofNat (48 + packetNumber type)], isDigit x = true := by
    simpa using hdigit
  have hsame : type.code = packetNumber type := by cases type <;> rfl
  rw [Buffer.sevenBit_eq (fun x hx => toNat_lt_of_isDigit (hall x hx)),
    number_of_digits hall (by simp), hvalue, hsame]

namespace Reply

lemma bytes_eq (r : Reply) : ∃ (text : Bytes) (c : UInt8), r.bytes = text ++ c :: r.body ∧
    text.length = 4 ∧ (∀ x ∈ text, isDigit x = true) ∧
    number (Buffer.sevenBit text) = some (r.body.length : ℚ) ∧ isDigit c = true ∧
    number (Buffer.sevenBit [c]) = some (packetNumber r.type : ℚ) := by
  have hlt : r.body.length < 10 ^ 4 := by
    have hmax : Packet.maxBodyLength = 512 := rfl
    have hle := r.body_le
    omega
  have hdigits := printInt_isDigit 4 r.body.length
  have hcode : printInt 1 r.type.code = [UInt8.ofNat (48 + packetNumber r.type)] := by
    cases r.type <;> rfl
  refine ⟨printInt 4 r.body.length, _, ?_, printInt_length (by decide) hlt, hdigits, ?_,
    (typeText r.type).1, number_typeText r.type⟩
  · rw [bytes, Packet.header, hcode, List.append_assoc, List.singleton_append]
  · rw [Buffer.sevenBit_eq (fun c hc => toNat_lt_of_isDigit (hdigits c hc))]
    rw [number_of_digits hdigits (printInt_ne_nil 4 _), value_printInt]

lemma length_eq (r : Reply) : r.length = 5 + r.body.length := by
  obtain ⟨text, c, hbytes, htext, -⟩ := r.bytes_eq
  rw [length, hbytes, List.length_append, List.length_cons, htext]
  omega

lemma bytes_drop (r : Reply) (j : ℕ) : r.bytes.drop (5 + j) = r.body.drop j := by
  obtain ⟨text, c, hbytes, htext, -⟩ := r.bytes_eq
  rw [hbytes, show 5 + j = text.length + (j + 1) by omega, List.drop_length_add_append,
    List.drop_succ_cons]

lemma length_pos (r : Reply) : 0 < r.length := by
  rw [length_eq]
  omega

lemma decodePacket_bytes (r : Reply) (rest : Bytes) : decodePacket (r.bytes ++ rest) =
    ⟨some (packetNumber r.type), Buffer.sevenBit r.body.dropLast, rest⟩ := by
  obtain ⟨text, c, hbytes, htext, -, hlength, -, htype⟩ := r.bytes_eq
  have hpos := List.length_pos_iff.mpr r.body_ne
  rw [hbytes, List.append_assoc, List.cons_append, decodePacket_of_length htext hpos hlength, htype,
    List.take_append_of_le_length (Nat.sub_le _ _), ← List.dropLast_eq_take, List.drop_left]

lemma handled_bytes (r : Reply) {cs : List Callback} : Handled r.bytes cs ↔ cs = r.callbacks := by
  have hdecode := r.decodePacket_bytes []
  rw [List.append_nil] at hdecode
  rw [handled_last (by rw [hdecode]), hdecode]
  rfl

lemma handled_bytes_append (r : Reply) {rest : Bytes} (hrest : rest ≠ []) {cs : List Callback} :
    Handled (r.bytes ++ rest) cs ↔ ∃ ds, Handled rest ds ∧ cs = r.callbacks ++ ds := by
  have hdecode := r.decodePacket_bytes rest
  rw [handled_more (by rw [hdecode]; exact hrest), hdecode]
  rfl

end Reply

lemma total_eq (replies : List Reply) :
    total Reply.length replies = (replies.flatMap Reply.bytes).length := by
  rw [List.length_flatMap]
  rfl

lemma handled_replies_append (replies : List Reply) {rest : Bytes} (hrest : rest ≠ [])
    {cs : List Callback} : Handled (replies.flatMap Reply.bytes ++ rest) cs ↔
      ∃ ds, Handled rest ds ∧ cs = replies.flatMap Reply.callbacks ++ ds := by
  induction replies generalizing cs with
  | nil => simp
  | cons r replies ih =>
    rw [List.flatMap_cons, List.append_assoc, r.handled_bytes_append (by simp [hrest])]
    simp only [ih, List.flatMap_cons, List.append_assoc]
    constructor
    · rintro ⟨_, ⟨ds, hds, rfl⟩, rfl⟩
      exact ⟨ds, hds, rfl⟩
    · rintro ⟨ds, hds, rfl⟩
      exact ⟨_, ⟨ds, hds, rfl⟩, rfl⟩

lemma handled_replies {replies : List Reply} (hne : replies ≠ []) {cs : List Callback} :
    Handled (replies.flatMap Reply.bytes) cs ↔ cs = replies.flatMap Reply.callbacks := by
  obtain ⟨init, r, rfl⟩ : ∃ init r, replies = init ++ [r] :=
    ⟨_, _, (List.dropLast_append_getLast hne).symm⟩
  have hpos : r.bytes ≠ [] := List.length_pos_iff.mp r.length_pos
  rw [List.flatMap_append, List.flatMap_append, List.flatMap_singleton, List.flatMap_singleton,
    handled_replies_append init hpos]
  simp [r.handled_bytes]

lemma calls_replies (replies : List Reply) {cs : List Callback} :
    Calls (replies.map Reply.bytes) cs ↔ cs = replies.flatMap Reply.callbacks := by
  induction replies generalizing cs with
  | nil => exact calls_nil
  | cons r replies ih =>
    rw [List.map_cons, calls_cons, List.flatMap_cons]
    simp [r.handled_bytes, ih]

lemma sameCallbacks_iff (replies : List Reply) (sizes : List ℕ) : SameCallbacks replies sizes ↔
    Calls (sizes.splitLengths (replies.flatMap Reply.bytes)) (replies.flatMap Reply.callbacks) := by
  simp [SameCallbacks, calls_replies]

lemma calls_group {xs : List Reply} (hxs : xs ≠ []) (ys : List Reply) (sizes : List ℕ) :
    Calls ((total Reply.length xs :: sizes).splitLengths ((xs ++ ys).flatMap Reply.bytes))
        ((xs ++ ys).flatMap Reply.callbacks) ↔
      Calls (sizes.splitLengths (ys.flatMap Reply.bytes)) (ys.flatMap Reply.callbacks) := by
  rw [List.flatMap_append, List.flatMap_append, List.splitLengths_cons, total_eq, List.take_left,
    List.drop_left, calls_cons]
  constructor
  · rintro ⟨as, bs, has, hbs, hcs⟩
    rw [(handled_replies hxs).mp has] at hcs
    rwa [List.append_cancel_left hcs]
  · intro h
    exact ⟨_, _, (handled_replies hxs).mpr rfl, h, rfl⟩

lemma ne_nil_of_total {xs : List Reply} (h : 0 < total Reply.length xs) : xs ≠ [] := by
  rintro rfl
  exact Nat.lt_irrefl 0 h

lemma calls_of_aligned {replies : List Reply} {sizes : List ℕ} (hpos : ∀ n ∈ sizes, 0 < n)
    (hsum : sizes.sum = total Reply.length replies) (h : Aligned Reply.length sizes replies) :
    Calls (sizes.splitLengths (replies.flatMap Reply.bytes))
      (replies.flatMap Reply.callbacks) := by
  induction sizes generalizing replies with
  | nil =>
    cases replies with
    | nil => exact calls_nil.mpr rfl
    | cons r replies =>
      have hr := r.length_pos
      have htotal : total Reply.length (r :: replies) =
        r.length + total Reply.length replies := rfl
      rw [htotal, List.sum_nil] at hsum
      omega
  | cons n sizes ih =>
    obtain ⟨xs, ys, rfl, rfl⟩ := h.head
    rw [calls_group (ne_nil_of_total (hpos _ (by simp)))]
    rw [List.sum_cons, total_append] at hsum
    exact ih (fun m hm => hpos m (by simp [hm])) (Nat.add_left_cancel hsum)
      ((aligned_cons sizes xs ys).mp h)

def reply (type : PacketType) (string : Bytes) : Callback :=
  match type with
  | .train => .train string
  | .summary => .summary string
  | _ => .prediction string

lemma callbacks_reply {type : PacketType} (h : type ≠ .predict) {p : Decoded}
    (hp : p.type = some (packetNumber type : ℚ)) : callbacks p = [reply type p.string] := by
  cases type <;> simp_all [callbacks, packetNumber, reply]

lemma reply_injective {t t' : PacketType} (ht : t ≠ .predict) (ht' : t' ≠ .predict)
    {s s' : Bytes} (h : reply t s = reply t' s') : t = t' ∧ s = s' := by
  cases t <;> cases t' <;> simp_all [reply]

lemma Reply.callbacks_eq (r : Reply) :
    r.callbacks = [reply r.type (Buffer.sevenBit r.body.dropLast)] :=
  callbacks_reply r.type_ne rfl

lemma decodePacket_digits {data : Bytes} (hdigits : ∀ c ∈ data, isDigit c = true)
    (hne : data ≠ []) (hlen : data.length ≤ 4) :
    decodePacket data = ⟨some (packetNumber .train), [], []⟩ := by
  have hlength : number (Buffer.toString data 0 (some ((headerLength - 1 : ℕ) : ℚ))) =
      some (value data : ℚ) := by
    have htake : data.take (headerLength - 1) = data := List.take_of_length_le hlen
    rw [Buffer.toString_natCast, htake, List.drop_zero,
      Buffer.sevenBit_eq (fun c hc => toNat_lt_of_isDigit (hdigits c hc)),
      number_of_digits hdigits hne]
  have hdrop (xs : Bytes) (n : ℕ) (h : xs.length ≤ n) : Buffer.sevenBit (xs.drop n) = [] := by
    rw [List.drop_eq_nil_of_le h]
    rfl
  have hshort (k : ℕ) : (data.take k).length ≤ 4 := Nat.le_trans (List.length_take_le' k data) hlen
  have htype : number (Buffer.toString data (headerLength - 1) (some (headerLength : ℚ))) =
      some (packetNumber .train : ℚ) := by
    rw [Buffer.toString_natCast, hdrop _ (headerLength - 1) (hshort _)]
    rfl
  have hstring (stop : Number) : Buffer.toString data headerLength stop = [] :=
    hdrop _ _ (Nat.le_succ_of_le (hshort _))
  simp only [decodePacket, hlength, htype, hstring, Option.map_some]
  rw [← Nat.cast_add, Buffer.slice_natCast, List.drop_eq_nil_of_le]
  exact Nat.le_trans (hshort _) (Nat.le_add_right_of_le (by decide))

lemma handled_header (r : Reply) {k : ℕ} (hk : 0 < k) (hle : k ≤ 4) {cs : List Callback}
    (h : Handled (r.bytes.take k) cs) : cs = [.train []] := by
  obtain ⟨text, c, hbytes, htext, hdigits, -⟩ := r.bytes_eq
  rw [hbytes, List.take_append_of_le_length (by omega)] at h
  have hne : text.take k ≠ [] := by
    rw [← List.length_pos_iff, List.length_take]
    omega
  have hdecode := decodePacket_digits (fun x hx => hdigits x (List.mem_of_mem_take hx)) hne
    (Nat.le_trans (List.length_take_le k text) hle)
  have htrain : PacketType.train ≠ .predict := by decide
  rw [(handled_last (by rw [hdecode])).mp h, hdecode, callbacks_reply htrain rfl]
  rfl

lemma handled_body (r : Reply) {j : ℕ} (hj : j < r.body.length) {cs : List Callback}
    (h : Handled (r.bytes.take (5 + j)) cs) :
    cs = [reply r.type (Buffer.sevenBit ((r.body.take j).take (r.body.length - 1)))] := by
  obtain ⟨text, c, hbytes, htext, -, hlength, -, htype⟩ := r.bytes_eq
  have htake : r.bytes.take (5 + j) = text ++ c :: r.body.take j := by
    rw [hbytes, show 5 + j = text.length + (j + 1) by omega, List.take_length_add_append,
      List.take_succ_cons]
  have hpos : 0 < r.body.length := by omega
  have hdecode : decodePacket (text ++ c :: r.body.take j) = _ :=
    decodePacket_of_length htext hpos hlength
  rw [htype, List.drop_eq_nil_of_le (Nat.le_trans (List.length_take_le _ _) hj.le),
    ← htake] at hdecode
  rw [(handled_last (by rw [hdecode])).mp h, hdecode, callbacks_reply r.type_ne rfl]

lemma decodePacket_of_nul {ds rest : Bytes} (hds : ∀ c ∈ ds, isDigit c = true)
    (hlen : ds.length ≤ 3) :
    (decodePacket (ds ++ 0 :: rest)).remaining = ds ++ 0 :: rest := by
  have htake : (ds ++ 0 :: rest).take 4 = ds ++ 0 :: rest.take (3 - ds.length) := by
    rw [List.take_append, List.take_of_length_le (by omega),
      show 4 - ds.length = (3 - ds.length) + 1 by omega, List.take_succ_cons]
  have hseven : Buffer.sevenBit (ds ++ 0 :: rest.take (3 - ds.length)) =
      ds ++ 0 :: Buffer.sevenBit (rest.take (3 - ds.length)) := by
    have hsame := Buffer.sevenBit_eq (fun c hc => toNat_lt_of_isDigit (hds c hc))
    rw [Buffer.sevenBit] at hsame
    rw [Buffer.sevenBit, List.map_append, hsame]
    rfl
  have hfirst : ∀ x ∈ (ds ++ [0]).head?, isSpace x = false := by
    cases ds with
    | nil => simp [isSpace]
    | cons d ds =>
      intro x hx
      obtain rfl : d = x := by simpa using hx
      exact (isSpace_of_isDigit (hds d (by simp))).1
  obtain ⟨rest', htrim⟩ := trim_keeps (Buffer.sevenBit (rest.take (3 - ds.length))) hfirst rfl
  apply (decodePacket_of_none _).2
  rw [htake, hseven]
  exact number_eq_none htrim hds (by decide)

lemma not_calls_of_nul {ds rest : Bytes} {sizes : List ℕ} (hds : ∀ c ∈ ds, isDigit c = true)
    (hlen : ds.length ≤ 3) (hpos : ∀ n ∈ sizes, 0 < n) (hsum : ds.length < sizes.sum)
    (cs : List Callback) : ¬ Calls (sizes.splitLengths (ds ++ 0 :: rest)) cs := by
  induction sizes generalizing ds cs with
  | nil => exact absurd hsum (Nat.not_lt_zero _)
  | cons n sizes ih =>
    have hn := hpos n (by simp)
    rw [List.splitLengths_cons, calls_cons]
    rintro ⟨as, bs, has, hbs, -⟩
    rw [List.sum_cons] at hsum
    by_cases hle : n ≤ ds.length
    · rw [List.drop_append_of_le_length hle] at hbs
      exact ih (fun c hc => hds c (List.mem_of_mem_drop hc))
        (by rw [List.length_drop]; omega) (fun m hm => hpos m (by simp [hm]))
        (by rw [List.length_drop]; omega) bs hbs
    · have htake : (ds ++ 0 :: rest).take n = ds ++ 0 :: rest.take (n - ds.length - 1) := by
        rw [List.take_append, List.take_of_length_le (by omega),
          show n - ds.length = (n - ds.length - 1) + 1 by omega, List.take_succ_cons,
          Nat.add_sub_cancel]
      rw [htake] at has
      exact not_handled_of_remaining (by simp) (decodePacket_of_nul hds hlen) as has

lemma calls_inside {xs ys : List Reply} {r : Reply} {k : ℕ} {sizes : List ℕ} (hk : 0 < k)
    (hlt : k < r.length)
    (h : Calls (((total Reply.length xs + k) :: sizes).splitLengths
      ((xs ++ r :: ys).flatMap Reply.bytes)) ((xs ++ r :: ys).flatMap Reply.callbacks)) :
    ∃ as bs, Handled (r.bytes.take k) as ∧
      Calls (sizes.splitLengths (r.bytes.drop k ++ ys.flatMap Reply.bytes)) bs ∧
      as ++ bs = r.callbacks ++ ys.flatMap Reply.callbacks := by
  have hne : r.bytes.take k ≠ [] := by
    rw [← List.length_pos_iff, List.length_take]
    exact lt_min hk r.length_pos
  have hle : k ≤ r.bytes.length := hlt.le
  rw [List.flatMap_append, List.flatMap_append, List.flatMap_cons, List.flatMap_cons,
    List.splitLengths_cons, total_eq, List.take_length_add_append, List.drop_length_add_append,
    List.take_append_of_le_length hle, List.drop_append_of_le_length hle, calls_cons] at h
  obtain ⟨cs, bs, hcs, hbs, heq⟩ := h
  obtain ⟨as, has, rfl⟩ := (handled_replies_append xs hne).mp hcs
  rw [List.append_assoc] at heq
  exact ⟨as, bs, has, hbs, (List.append_cancel_left heq).symm⟩

lemma train_of_header {r : Reply} {ys : List Reply} {k : ℕ} (hk : 0 < k) (hle : k ≤ 4)
    {as bs : List Callback} (has : Handled (r.bytes.take k) as)
    (heq : as ++ bs = r.callbacks ++ ys.flatMap Reply.callbacks) :
    r.type = .train ∧ r.body.length = 1 ∧ bs = ys.flatMap Reply.callbacks := by
  rw [handled_header r hk hle has, r.callbacks_eq] at heq
  obtain ⟨hhead, htail⟩ := List.cons.inj heq
  obtain ⟨htype, hstring⟩ := reply_injective (t := .train) (by decide) r.type_ne hhead
  have hlen := congrArg List.length hstring
  rw [Buffer.sevenBit, List.length_map, List.length_dropLast, List.length_nil] at hlen
  have hpos := List.length_pos_iff.mpr r.body_ne
  exact ⟨htype.symm, by omega, htail⟩

/-- Bodies that end with a NUL, and no packets with the number of mistakes. -/
def Terminated (r : Reply) : Prop := r.type ≠ .train ∧ r.body.getLast? = some 0

lemma aligned_of_calls {replies : List Reply} {sizes : List ℕ} (hpos : ∀ n ∈ sizes, 0 < n)
    (hsum : sizes.sum = total Reply.length replies) (hterm : ∀ r ∈ replies, Terminated r)
    (h : Calls (sizes.splitLengths (replies.flatMap Reply.bytes))
      (replies.flatMap Reply.callbacks)) : Aligned Reply.length sizes replies := by
  induction sizes generalizing replies with
  | nil => exact aligned_nil replies
  | cons n sizes ih =>
    have hsizes : ∀ m ∈ sizes, 0 < m := fun m hm => hpos m (by simp [hm])
    have hn := hpos n (by simp)
    rw [List.sum_cons] at hsum
    have hle : n ≤ total Reply.length replies := by omega
    rcases exists_place hle with
      ⟨xs, ys, rfl, rfl⟩ | ⟨xs, r, ys, k, rfl, rfl, hk, hlt⟩
    · rw [calls_group (ne_nil_of_total hn)] at h
      rw [total_append] at hsum
      exact (aligned_cons sizes xs ys).mpr
        (ih hsizes (by omega) (fun r hr => hterm r (by simp [hr])) h)
    · exfalso
      obtain ⟨htrain, hlast⟩ := hterm r (by simp)
      obtain ⟨as, bs, has, hbs, heq⟩ := calls_inside hk hlt h
      rw [total_append, show total Reply.length (r :: ys) = r.length + total Reply.length ys
        from rfl] at hsum
      by_cases hheader : k ≤ 4
      · exact htrain (train_of_header hk hheader has heq).1
      · rw [r.length_eq] at hlt hsum
        obtain ⟨j, rfl⟩ : ∃ j, k = 5 + j := ⟨k - 5, by omega⟩
        rw [handled_body r (by omega) has, r.callbacks_eq] at heq
        have hstring := (reply_injective r.type_ne r.type_ne (List.cons.inj heq).1).2
        have hlen := congrArg List.length hstring
        simp only [Buffer.sevenBit, List.length_map, List.length_take,
          List.length_dropLast] at hlen
        -- only the last byte is missing, and it is a NUL
        have hj : j = r.body.length - 1 := by omega
        have hdrop : r.bytes.drop (5 + j) = [0] := by
          rw [List.getLast?_eq_getLast_of_ne_nil r.body_ne, Option.some.injEq] at hlast
          rw [r.bytes_drop, hj, List.drop_length_sub_one r.body_ne, hlast]
        rw [hdrop] at hbs
        have hdigits : ∀ c ∈ ([] : Bytes), isDigit c = true := by simp
        exact not_calls_of_nul hdigits (by decide) hsizes (by rw [List.length_nil]; omega) bs hbs

def Reply.withBody (r : Reply) (body : Bytes) (h : body.length = r.body.length) : Reply :=
  { r with
    body := body
    body_ne := by
      have hpos := List.length_pos_iff.mpr r.body_ne
      rwa [← h, List.length_pos_iff] at hpos
    body_le := by
      rw [h]
      exact r.body_le }

def Reply.blank (r : Reply) : Reply :=
  r.withBody (List.replicate r.body.length 0) List.length_replicate

lemma Reply.blank_drop (r : Reply) {k : ℕ} (hk : 2 ≤ k) (hlt : k < r.length) :
    ∃ ds rest, r.blank.bytes.drop k = ds ++ 0 :: rest ∧ (∀ c ∈ ds, isDigit c = true) ∧
      ds.length ≤ 3 := by
  rw [r.length_eq] at hlt
  obtain ⟨text, c, hbytes, htext, hdigits, -, hc, -⟩ := r.blank.bytes_eq
  obtain ⟨l, hl⟩ : ∃ l, r.body.length = l + 1 :=
    ⟨r.body.length - 1, by have := List.length_pos_iff.mpr r.body_ne; omega⟩
  have hbody : r.blank.body = 0 :: List.replicate l 0 := by
    change List.replicate r.body.length 0 = _
    rw [hl, List.replicate_succ]
  by_cases hle : k ≤ 5
  · refine ⟨(text ++ [c]).drop k, List.replicate l 0, ?_, ?_, ?_⟩
    · rw [hbytes, hbody, List.append_cons, List.drop_append_of_le_length]
      rw [List.length_append, htext]
      exact hle
    · intro x hx
      rcases List.mem_append.mp (List.mem_of_mem_drop hx) with hx | hx
      · exact hdigits x hx
      · rw [List.mem_singleton.mp hx]
        exact hc
    · rw [List.length_drop, List.length_append, htext, List.length_singleton]
      omega
  · obtain ⟨j, rfl⟩ : ∃ j, k = 5 + j := ⟨k - 5, by omega⟩
    refine ⟨[], List.replicate (l - j) 0, ?_, by simp, by simp⟩
    rw [r.blank.bytes_drop, hbody, ← List.replicate_succ, List.drop_replicate, List.nil_append,
      ← List.replicate_succ]
    congr 1
    omega

lemma Reply.withBody_length (r : Reply) {body : Bytes} (h : body.length = r.body.length) :
    (r.withBody body h).length = r.length := by
  rw [Reply.length_eq, r.length_eq, withBody, h]

lemma type_of_second (r : Reply) {c : UInt8} (hbody : r.body = [c]) (tail : Bytes) {m : ℕ}
    (hm : 5 ≤ m) : (decodePacket ((r.bytes.drop 1 ++ tail).take m)).type =
      number (Buffer.sevenBit [c]) := by
  obtain ⟨text, d, hbytes, htext, -⟩ := r.bytes_eq
  obtain ⟨a, t, rfl⟩ := List.exists_cons_of_ne_nil
    (List.ne_nil_of_length_pos (Nat.lt_of_lt_of_eq (by decide : 0 < 4) htext.symm))
  have hsplit : r.bytes.drop 1 ++ tail = (t ++ [d]) ++ [c] ++ tail := by
    rw [hbytes, hbody]
    simp
  have ht : (t ++ [d]).length = 4 := by
    rw [List.length_append]
    exact htext
  have hfive : (t ++ [d] ++ [c]).length = headerLength := by
    rw [List.length_append, ht]
    rfl
  have htype : ((((t ++ [d]) ++ [c] ++ tail).take m).take headerLength).drop (headerLength - 1) =
      [c] := by
    rw [List.take_take, Nat.min_eq_left (show headerLength ≤ m from hm), List.take_left' hfive]
    exact List.drop_left' ht
  rw [hsplit, decodePacket, Buffer.toString_natCast, htype]

lemma not_calls_of_blank (r : Reply) {k : ℕ} {sizes : List ℕ} (hk : 2 ≤ k) (hlt : k < r.length)
    (hpos : ∀ n ∈ sizes, 0 < n) (hsum : r.length ≤ k + sizes.sum) (tail : Bytes)
    (cs : List Callback) : ¬ Calls (sizes.splitLengths (r.blank.bytes.drop k ++ tail)) cs := by
  obtain ⟨ds, rest, hdrop, hds, hshort⟩ := r.blank_drop hk hlt
  have hbytes : r.blank.bytes.length = r.length := r.withBody_length _
  have hlen := congrArg List.length hdrop
  rw [List.length_drop, List.length_append, List.length_cons] at hlen
  rw [hdrop, List.append_assoc, List.cons_append]
  exact not_calls_of_nul hds hshort hpos (by omega) cs

lemma not_calls_of_chosen (r : Reply) (ys : List Reply) {type : PacketType}
    (htype : type ≠ .predict) (hother : ∀ p ∈ ys.head?, p.type ≠ type)
    (hbody : r.body = [UInt8.ofNat (48 + packetNumber type)]) {m : ℕ} (hm : 5 ≤ m) {sizes : List ℕ}
    {tail : Bytes} : ¬ Calls ((m :: sizes).splitLengths (r.bytes.drop 1 ++ tail))
      (ys.flatMap Reply.callbacks) := by
  rw [List.splitLengths_cons, calls_cons]
  rintro ⟨as, bs, has, -, hys⟩
  have hread : (decodePacket ((r.bytes.drop 1 ++ tail).take m)).type =
      some (packetNumber type : ℚ) := by
    rw [type_of_second r hbody tail hm, number_typeText]
  have hfirst := callbacks_of_handled has
  rw [callbacks_reply htype hread] at hfirst
  obtain ⟨cs, rfl⟩ := hfirst
  cases ys with
  | nil => simp at hys
  | cons p ys =>
    rw [List.flatMap_cons, p.callbacks_eq] at hys
    exact hother p rfl (reply_injective p.type_ne htype (List.cons.inj hys).1).1

lemma exists_other_type (ys : List Reply) :
    ∃ type : PacketType, type ≠ .predict ∧ ∀ p ∈ ys.head?, p.type ≠ type := by
  cases ys with
  | nil => exact ⟨.summary, by decide, by simp⟩
  | cons p ys =>
    by_cases hp : p.type = .summary
    · exact ⟨.prediction, by decide, by simp [hp]⟩
    · exact ⟨.summary, by decide, by simpa using hp⟩

lemma not_inside (xs : List Reply) {ys : List Reply} {r : Reply} {k : ℕ} {sizes : List ℕ}
    (hk : 0 < k) (hlt : k < r.length) (hpos : ∀ n ∈ sizes, 0 < n)
    (hsum : k + sizes.sum = r.length + total Reply.length ys) :
    ¬ ∀ (body : Bytes) (h : body.length = r.body.length),
      Calls (((total Reply.length xs + k) :: sizes).splitLengths
        ((xs ++ r.withBody body h :: ys).flatMap Reply.bytes))
        ((xs ++ r.withBody body h :: ys).flatMap Reply.callbacks) := by
  intro h
  have hblank : r.blank.bytes.length = r.length := r.withBody_length _
  obtain ⟨as, bs, has, hbs, heq⟩ := calls_inside hk (by rwa [r.withBody_length])
    (h (List.replicate r.body.length 0) List.length_replicate)
  change Handled (r.blank.bytes.take k) as at has
  by_cases htwo : 2 ≤ k
  · exact not_calls_of_blank r htwo hlt hpos (by omega) _ bs hbs
  · -- the handler has taken one byte for a training packet
    obtain rfl : k = 1 := by omega
    obtain ⟨-, hone, -⟩ := train_of_header hk (by decide) has heq
    have hbody : r.body.length = 1 := by
      rw [← hone]
      exact List.length_replicate.symm
    have hlength := r.length_eq
    cases sizes with
    | nil =>
      rw [List.sum_nil] at hsum
      omega
    | cons m sizes =>
      have hm := hpos m (by simp)
      rw [List.sum_cons] at hsum
      by_cases hfour : m ≤ 4
      · rw [List.splitLengths_cons, calls_cons] at hbs
        obtain ⟨_, bs', -, hbs', -⟩ := hbs
        change Calls (sizes.splitLengths ((r.blank.bytes.drop 1 ++ _).drop m)) bs' at hbs'
        rw [List.drop_append_of_le_length (by rw [List.length_drop]; omega), List.drop_drop] at hbs'
        exact not_calls_of_blank r (by omega) (by omega) (fun n hn => hpos n (by simp [hn]))
          (by omega) _ bs' hbs'
      · obtain ⟨type, htype, hother⟩ := exists_other_type ys
        obtain ⟨as, bs, has, hbs, heq⟩ := calls_inside hk (by rwa [r.withBody_length])
          (h [UInt8.ofNat (48 + packetNumber type)] hbody.symm)
        obtain ⟨-, -, rfl⟩ := train_of_header hk (by decide) has heq
        exact not_calls_of_chosen _ ys htype hother rfl (by omega) hbs

lemma aligned_of_all {replies : List Reply} {sizes : List ℕ} (hpos : ∀ n ∈ sizes, 0 < n)
    (hsum : sizes.sum = total Reply.length replies)
    (h : ∀ replies' : List Reply, replies'.map Reply.shape = replies.map Reply.shape →
      Calls (sizes.splitLengths (replies'.flatMap Reply.bytes))
        (replies'.flatMap Reply.callbacks)) : Aligned Reply.length sizes replies := by
  induction sizes generalizing replies with
  | nil => exact aligned_nil replies
  | cons n sizes ih =>
    have hsizes : ∀ m ∈ sizes, 0 < m := fun m hm => hpos m (by simp [hm])
    have hn := hpos n (by simp)
    rw [List.sum_cons] at hsum
    have hle : n ≤ total Reply.length replies := by omega
    rcases exists_place hle with
      ⟨xs, ys, rfl, rfl⟩ | ⟨xs, r, ys, k, rfl, rfl, hk, hlt⟩
    · rw [total_append] at hsum
      refine (aligned_cons sizes xs ys).mpr (ih hsizes (by omega) fun ys' hys => ?_)
      rw [← calls_group (ne_nil_of_total hn)]
      apply h
      rw [List.map_append, List.map_append, hys]
    · rw [total_append, show total Reply.length (r :: ys) = r.length + total Reply.length ys
        from rfl] at hsum
      have hinside := not_inside xs hk hlt hsizes
        (show k + sizes.sum = r.length + total Reply.length ys by omega)
      refine absurd (fun body hbody => ?_) hinside
      apply h
      rw [List.map_append, List.map_append, List.map_cons, List.map_cons, Reply.shape,
        Reply.shape, Reply.withBody, hbody]

lemma lengths_of_shapes {replies replies' : List Reply}
    (h : replies'.map Reply.shape = replies.map Reply.shape) :
    replies'.map Reply.length = replies.map Reply.length := by
  have hlength : Reply.length = (fun s : PacketType × ℕ => 5 + s.2) ∘ Reply.shape :=
    funext Reply.length_eq
  rw [hlength, ← List.map_map, h, List.map_map]

theorem events_law {replies : List Reply} {sizes : List ℕ} (hpos : ∀ n ∈ sizes, 0 < n)
    (hsum : sizes.sum = total Reply.length replies) :
    ((∀ replies' : List Reply, replies'.map Reply.shape = replies.map Reply.shape →
        SameCallbacks replies' sizes) ↔ Aligned Reply.length sizes replies) ∧
      ((∀ r ∈ replies, Terminated r) →
        (SameCallbacks replies sizes ↔ Aligned Reply.length sizes replies)) := by
  simp only [sameCallbacks_iff]
  refine ⟨⟨fun h => ?_, fun h replies' hshape => ?_⟩, fun hterm => ⟨fun h => ?_, fun h => ?_⟩⟩
  · exact aligned_of_all hpos hsum h
  · have hlengths := lengths_of_shapes hshape
    refine calls_of_aligned hpos ?_ (h.congr hlengths.symm)
    rw [hsum, total, total, hlengths]
  · exact aligned_of_calls hpos hsum hterm h
  · exact calls_of_aligned hpos hsum h

theorem events_law_together :
    SameCallbacks
      [⟨.prediction, by decide, [97, 98, 0], by decide, by decide⟩,
        ⟨.train, by decide, [55], by decide, by decide⟩] [14] := by
  have hboth (r t : Reply) (hr : r.body.length = 3) (ht : t.body.length = 1) :
      SameCallbacks [r, t] [14] := by
    have htotal : total Reply.length [r, t] = 14 := by
      simp [total, Reply.length_eq, hr, ht]
    have hone : Aligned Reply.length [] [] := aligned_nil []
    have haligned := (aligned_cons [] [r, t] []).mpr hone
    rw [htotal] at haligned
    have hsum : [14].sum = total Reply.length [r, t] := htotal.symm
    exact (events_law (by decide) hsum).1.mpr haligned _ rfl
  exact hboth _ _ rfl rfl

theorem events_law_fails : ¬ ∀ (replies : List Reply) (sizes : List ℕ), (∀ n ∈ sizes, 0 < n) →
    sizes.sum = total Reply.length replies → SameCallbacks replies sizes := by
  intro h
  obtain ⟨r, htype, hbody⟩ : ∃ r : Reply, r.type = .prediction ∧ r.body = [97, 98, 0] :=
    ⟨⟨.prediction, by decide, [97, 98, 0], by decide, by decide⟩, rfl, rfl⟩
  have hlength : r.length = 8 := by rw [r.length_eq, hbody]; rfl
  have hsum : [6, 2].sum = total Reply.length [r] := by
    rw [total, List.map_singleton, hlength]
    rfl
  have hsame := h [r] [6, 2] (by decide) hsum
  rw [sameCallbacks_iff] at hsame
  have haligned := aligned_of_calls (by decide) hsum (by simp [Terminated, htype, hbody]) hsame
  obtain ⟨j, hj⟩ := haligned 1
  cases j with
  | zero => exact absurd hj (Nat.succ_ne_zero 5)
  | succ j =>
    have hall : [r].take (j + 1) = [r] := List.take_of_length_le (by simp)
    rw [hall, ← hsum] at hj
    exact absurd hj (by decide)

end WordModel.NodeJs
