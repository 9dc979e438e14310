import WordModel.Packet.ModelServer
import Mathlib.Logic.Function.Iterate

/-! Sessions whose peer sends what it sends and then closes the connection. A read that is
posted completes with an error as soon as the bytes run short. -/

namespace WordModel

open Checked Decimal Packet

structure Session (β : Type) where
  readPacket : Packet
  posted : List PendingRead
  stream : Bytes
  processed : List β
  closed : Bool

namespace Session

variable {β : Type}

def readHeader (s : Session β) : Session β := { s with posted := s.posted ++ [.header] }

def readBody (s : Session β) : Session β := { s with posted := s.posted ++ [.body] }

def close (s : Session β) : Session β := { s with closed := true }

def process (what : Packet → β) (s : Session β) : Session β :=
  { s with processed := s.processed ++ [what s.readPacket] }

structure Handlers (β : Type) where
  onHeader : Bool → Session β → Session β
  onBody : Bool → Session β → Session β

def headerHandler (refuse : Session β → Session β) (ec : Bool) (s : Session β) : Session β :=
  if ec then refuse s
  else
    let (p, accepted) := s.readPacket.decodeHeader
    if accepted then readBody { s with readPacket := p } else refuse { s with readPacket := p }

def wanted (p : Packet) (r : PendingRead) : ℕ := ModelServer.wanted ⟨p, r⟩

def offset : PendingRead → ℕ
  | .header => 0
  | .body => headerLength

def handle (h : Handlers β) (ec : Bool) (s : Session β) : PendingRead → Session β
  | .header => h.onHeader ec s
  | .body => h.onBody ec s

def complete (h : Handlers β) (s : Session β) : Session β :=
  match s.posted with
  | [] => s
  | r :: posted =>
    let n := wanted s.readPacket r
    handle h (decide (s.stream.length < n)) { s with
      readPacket := s.readPacket.store (offset r) (s.stream.take n)
      posted := posted
      stream := s.stream.drop n } r

def Fails (s : Session β) : Prop :=
  ∃ r ∈ s.posted.head?, s.stream.length < wanted s.readPacket r

def FailsFirst (h : Handlers β) (s : Session β) (n : ℕ) : Prop :=
  ((complete h)^[n] s).Fails ∧ ∀ k < n, ¬ ((complete h)^[k] s).Fails

/-- The chain of handlers comes to its end, and does so with the first read that fails. -/
structure Closes (h : Handlers β) (s : Session β) : Prop where
  finite : ∃ n, ((complete h)^[n] s).posted = []
  released : ∀ n, FailsFirst h s n → ((complete h)^[n + 1] s).posted = []

def opened (p : Packet) (stream : Bytes) : Session β := readHeader ⟨p, [], stream, [], false⟩

end Session

open Session

def ModelServer.handlers : Handlers ModelServer.Processed where
  onHeader := headerHandler readHeader
  onBody ec s :=
    let s := if ec then s else s.process (fun p => (p.type, p.body.take p.bodyLength))
    s.readHeader

def ServiceClient.handlers : Handlers Bytes where
  onHeader := headerHandler close
  onBody ec s := if ec then s.close else (s.process body).readHeader

namespace ModelServer

def session (s : ModelServer) (stream : Bytes) (log : List Processed) : Session Processed :=
  ⟨s.readPacket, [s.reading], stream, log, false⟩

lemma session_fails {s : ModelServer} {stream : Bytes} {log : List Processed} :
    (s.session stream log).Fails ↔ ¬ s.wanted ≤ stream.length := by
  simp [Fails, session, Session.wanted]

lemma session_complete {s : ModelServer} {stream : Bytes} (h : s.wanted ≤ stream.length)
    (log : List Processed) : (s.session stream log).complete handlers =
      (s.complete (stream.take s.wanted)).1.session (stream.drop s.wanted)
        (log ++ (s.complete (stream.take s.wanted)).2) := by
  obtain ⟨p, r⟩ := s
  have hok : ¬ stream.length < Session.wanted p r := not_lt.mpr h
  cases r with
  | header =>
    simp only [Session.complete, session, hok, decide_false, handle, offset, handlers,
      headerHandler, Bool.false_eq_true, if_false, ModelServer.complete, onHeader,
      List.append_nil]
    change (if (p.store 0 (stream.take (wanted ⟨p, .header⟩))).decodeHeader.2 = true then _
      else _) = _
    split
    · rfl
    · rfl
  | body =>
    simp only [Session.complete, session, hok, decide_false, handle, offset, handlers,
      Bool.false_eq_true, if_false, ModelServer.complete, onBody]
    rfl

lemma session_serve (s : ModelServer) (stream : Bytes) (log : List Processed) :
    ∃ n, FailsFirst handlers (s.session stream log) n ∧
      (Session.complete handlers)^[n] (s.session stream log) =
        (serve s stream).1.session (serve s stream).2.1 (log ++ (serve s stream).2.2) := by
  induction s, stream using serve.induct generalizing log with
  | case1 s stream hle r ih =>
    obtain ⟨n, ⟨hfails, hfirst⟩, heq⟩ := ih (log ++ r.2)
    have hstep := session_complete hle log
    refine ⟨n + 1, ⟨?_, fun k hk => ?_⟩, ?_⟩
    · rw [Function.iterate_succ_apply, hstep]
      exact hfails
    · cases k with
      | zero =>
        rw [Function.iterate_zero_apply, session_fails]
        exact not_not_intro hle
      | succ k =>
        rw [Function.iterate_succ_apply, hstep]
        exact hfirst k (Nat.lt_of_succ_lt_succ hk)
    · rw [Function.iterate_succ_apply, hstep, serve, if_pos hle, ← List.append_assoc]
      exact heq
  | case2 s stream hlt =>
    refine ⟨0, ⟨session_fails.mpr hlt, fun k hk => (Nat.not_lt_zero k hk).elim⟩, ?_⟩
    rw [serve, if_neg hlt, List.append_nil]
    rfl

lemma complete_posted {s : Session Processed} {r : PendingRead} (h : s.posted = [r]) :
    ∃ r', (s.complete handlers).posted = [r'] := by
  rw [Session.complete, h]
  cases r with
  | header =>
    simp only [handle, handlers, headerHandler]
    split
    · exact ⟨.header, rfl⟩
    · split
      · exact ⟨.body, rfl⟩
      · exact ⟨.header, rfl⟩
  | body =>
    refine ⟨.header, ?_⟩
    simp only [handle, handlers]
    split
    · rfl
    · rfl

lemma posted_always (p : Packet) (stream : Bytes) (n : ℕ) :
    ∃ r, ((Session.complete handlers)^[n] (opened p stream)).posted = [r] := by
  induction n with
  | zero => exact ⟨.header, rfl⟩
  | succ n ih =>
    obtain ⟨r, hr⟩ := ih
    rw [Function.iterate_succ_apply']
    exact complete_posted hr

lemma complete_failed {s : Session Processed} {r : PendingRead} (h : s.posted = [r])
    (hf : s.Fails) : (s.complete handlers).posted = [.header] ∧
      (s.complete handlers).stream = [] := by
  obtain ⟨r', hr', hlt⟩ := hf
  rw [h, List.head?_cons, Option.mem_some_iff] at hr'
  subst hr'
  have hdrop : s.stream.drop (Session.wanted s.readPacket r) = [] :=
    List.drop_eq_nil_of_le (Nat.le_of_lt hlt)
  rw [Session.complete, h]
  cases r with
  | header => exact ⟨by simp [handle, handlers, headerHandler, hlt, readHeader], by
      simp [handle, handlers, headerHandler, hlt, readHeader, hdrop]⟩
  | body => exact ⟨by simp [handle, handlers, hlt, readHeader], by
      simp [handle, handlers, hlt, readHeader, hdrop]⟩

lemma fails_always (p : Packet) (stream : Bytes) : ∃ n, FailsFirst handlers (opened p stream) n ∧
    ∀ k, n ≤ k → ((Session.complete handlers)^[k] (opened p stream)).Fails := by
  obtain ⟨n, hfirst, -⟩ := session_serve ⟨p, .header⟩ stream []
  refine ⟨n, hfirst, fun k hk => ?_⟩
  induction k, hk using Nat.le_induction with
  | base => exact hfirst.1
  | succ k hk ih =>
    obtain ⟨r, hr⟩ := posted_always p stream k
    obtain ⟨hposted, hstream⟩ := complete_failed hr ih
    rw [Function.iterate_succ_apply']
    refine ⟨.header, by rw [hposted]; rfl, ?_⟩
    rw [hstream]
    exact Nat.succ_pos 4

theorem close_law (p : Packet) (stream : Bytes) : ¬ Closes handlers (opened p stream) := by
  intro h
  obtain ⟨n, hn⟩ := h.finite
  obtain ⟨r, hr⟩ := posted_always p stream n
  rw [hr] at hn
  cases hn

theorem close_law_fails :
    let p := fresh (List.replicate 517 0) (by rw [List.length_replicate]; rfl)
    ¬ Closes handlers (opened p []) := by
  intro p h
  have hfirst : FailsFirst handlers (opened p []) 0 :=
    ⟨⟨.header, rfl, Nat.succ_pos 4⟩, nofun⟩
  have hposted := h.released 0 hfirst
  cases hposted

end ModelServer

namespace ServiceClient

def weight (s : Session Bytes) : ℕ :=
  2 * s.stream.length + if s.posted = [.body] then 1 else 0

lemma weight_header {s : Session Bytes} (h : s.posted = [.header]) :
    weight s = 2 * s.stream.length := by
  rw [weight, h, if_neg (by decide), Nat.add_zero]

lemma weight_body {s : Session Bytes} (h : s.posted = [.body]) :
    weight s = 2 * s.stream.length + 1 := by
  rw [weight, h, if_pos rfl]

lemma complete_failed {s : Session Bytes} {r : PendingRead} (h : s.posted = [r])
    (hf : s.Fails) : (s.complete handlers).posted = [] ∧ (s.complete handlers).closed = true := by
  obtain ⟨r', hr', hlt⟩ := hf
  rw [h, List.head?_cons, Option.mem_some_iff] at hr'
  subst hr'
  rw [Session.complete, h]
  cases r with
  | header => simp [handle, handlers, headerHandler, hlt, close]
  | body => simp [handle, handlers, hlt, close]

lemma complete_posted {s : Session Bytes} {r : PendingRead} (h : s.posted = [r]) :
    (s.complete handlers).posted = [] ∨
      (∃ r', (s.complete handlers).posted = [r']) ∧ weight (s.complete handlers) < weight s := by
  by_cases hf : s.Fails
  · exact Or.inl (complete_failed h hf).1
  have hlen : ¬ s.stream.length < Session.wanted s.readPacket r := by
    intro hlt
    exact hf ⟨r, by rw [h]; rfl, hlt⟩
  rw [Session.complete, h]
  cases r with
  | header =>
    have hpos : headerLength ≤ s.stream.length := not_lt.mp hlen
    have hfive : headerLength = 5 := rfl
    simp only [handle, handlers, headerHandler, hlen, decide_false, Bool.false_eq_true, if_false]
    split
    · right
      refine ⟨⟨.body, rfl⟩, ?_⟩
      rw [weight_header h, weight_body rfl]
      change 2 * (s.stream.drop headerLength).length + 1 < _
      rw [List.length_drop]
      omega
    · exact Or.inl rfl
  | body =>
    right
    simp only [handle, handlers, hlen, decide_false, Bool.false_eq_true, if_false]
    refine ⟨⟨.header, rfl⟩, ?_⟩
    rw [weight_body h, weight_header rfl]
    change 2 * (s.stream.drop (Session.wanted s.readPacket .body)).length < _
    rw [List.length_drop]
    omega

lemma posted_once (p : Packet) (stream : Bytes) (n : ℕ) :
    ((Session.complete handlers)^[n] (opened p stream)).posted = [] ∨
      ∃ r, ((Session.complete handlers)^[n] (opened p stream)).posted = [r] := by
  induction n with
  | zero => exact Or.inr ⟨.header, rfl⟩
  | succ n ih =>
    rw [Function.iterate_succ_apply']
    rcases ih with hnone | ⟨r, hr⟩
    · left
      rw [Session.complete, hnone]
      exact hnone
    · exact (complete_posted hr).imp id And.left

lemma ends {s : Session Bytes} {r : PendingRead} (h : s.posted = [r]) :
    ∃ n, ((Session.complete handlers)^[n] s).posted = [] := by
  induction hw : weight s using Nat.strong_induction_on generalizing s r with
  | h w ih =>
    rcases complete_posted h with hnone | ⟨⟨r', hr'⟩, hlt⟩
    · exact ⟨1, hnone⟩
    · obtain ⟨n, hn⟩ := ih _ (hw ▸ hlt) hr' rfl
      exact ⟨n + 1, hn⟩

theorem client_closes (p : Packet) (stream : Bytes) : Closes handlers (opened p stream) where
  finite := ends (r := .header) rfl
  released n hn := by
    rw [Function.iterate_succ_apply']
    rcases posted_once p stream n with hnone | ⟨r, hr⟩
    · obtain ⟨r, hr, -⟩ := hn.1
      rw [hnone] at hr
      cases hr
    · exact (complete_failed hr hn.1).1

end ServiceClient

end WordModel
