import WordModel.Packet.ServiceClient
import WordModel.Packet.EchoServer
import WordModel.Packet.StdinTcp

/-! The client that reads words from its input, a server, and what is under way between the
two. Its main thread posts the packets of the words, and at the end of the input a task that
closes the socket. -/

namespace WordModel

open Checked Decimal Packet Endpoint Stretches

/-- A server as a client meets it -/
structure Peer (ε S E : Type) where
  step : S → E → Except ε S
  CanOccur : S → E → Prop
  Fails : E → Prop
  arrive : S → Bytes → S
  arrived : S → Bytes
  out : S → Bytes
  Idle : S → Prop

/-- What it takes to answer a stream of requests with a stream of replies -/
structure Peer.Serves {ε S E : Type} (P : Peer ε S E) (calm : Prop)
    (requests replies : List (PacketType × Bytes)) (Inv : S → Prop) : Prop where
  step : ∀ s e, Inv s → P.CanOccur s e → (calm → ¬ P.Fails e) → ∃ t, P.step s e = .ok t ∧ Inv t ∧
    P.arrived t = P.arrived s ∧ P.out s <+: P.out t
  arrive : ∀ s bytes, Inv s → P.arrived s ++ bytes <+: requests.flatMap frame →
    Inv (P.arrive s bytes) ∧ P.arrived (P.arrive s bytes) = P.arrived s ++ bytes ∧
      P.out (P.arrive s bytes) = P.out s
  out : ∀ s, Inv s → P.out s <+: replies.flatMap frame
  idle : ∀ s, Inv s → calm → P.Idle s → P.arrived s = requests.flatMap frame →
    P.out s = replies.flatMap frame

structure Exchange (S : Type) where
  client : Endpoint
  tasks : List Endpoint.Event
  server : S

namespace Exchange

inductive Event (E : Type) where
  | client (e : Endpoint.Event)
  | task
  | server (e : E)
  | toServer (n : ℕ)
  | toClient (n : ℕ)

section

variable {ε S E : Type} (P : Peer ε S E)

def clientStep (x : Exchange S) (e : Endpoint.Event) : Except (Fault Container ⊕ ε) (Exchange S) :=
  match Endpoint.step ServiceClient.callbacks x.client e with
  | .ok client => .ok { x with client := client }
  | .error e => .error (.inl e)

def step (x : Exchange S) : Event E → Except (Fault Container ⊕ ε) (Exchange S)
  | .client e => clientStep x e
  | .task =>
    match x.tasks with
    | [] => .ok x
    | e :: tasks => clientStep { x with tasks := tasks } e
  | .server e =>
    match P.step x.server e with
    | .ok server => .ok { x with server := server }
    | .error e => .error (.inr e)
  | .toServer n =>
    let bytes := (x.client.outbox.out.drop (P.arrived x.server).length).take n
    .ok { x with server := P.arrive x.server bytes }
  | .toClient n => clientStep x (.arrive (((P.out x.server).drop x.client.arrived.length).take n))

def Event.CanOccur (x : Exchange S) : Event E → Prop
  | .client e => e.CanOccur x.client ∧ ServiceClient.Own e
  | .task => x.tasks ≠ []
  | .server e => P.CanOccur x.server e
  | .toServer _ => True
  | .toClient _ => True

def Event.Fails : Event E → Prop
  | .client e => ServiceClient.Fails e
  | .server e => P.Fails e
  | _ => False

def start (p : Packet) (queued : List Packet) (server : S) : Exchange S :=
  ⟨ServiceClient.start p, queued.map .write ++ [.close], server⟩

abbrev Reached (s : Exchange S) (events : List (Event E)) (x : Exchange S) : Prop :=
  Runs.Run (step P) (fun x e => e.CanOccur P x) s events x

structure Done (x : Exchange S) : Prop where
  tasks : ∀ e ∈ x.tasks, e = .close
  client : x.client.Idle
  server : P.Idle x.server
  sent : P.arrived x.server = x.client.outbox.out
  returned : x.client.arrived = P.out x.server

structure Coupled (calm : Prop) (replies : List (PacketType × Bytes)) (queued : List Packet)
    (Inv : S → Prop) (x : Exchange S) : Prop where
  client : ∃ pushed, ServiceClient.Follows calm replies x.client pushed ∧
    (x.tasks = [] ∧ pushed = queued ∨
      ∃ rest, x.tasks = rest.map .write ++ [.close] ∧ pushed ++ rest = queued)
  server : Inv x.server
  sent : P.arrived x.server <+: x.client.outbox.out
  returned : x.client.arrived <+: P.out x.server

end

lemma prefix_drop_take {α : Type} {xs ys : List α} (h : xs <+: ys) (n : ℕ) :
    xs ++ (ys.drop xs.length).take n <+: ys := by
  obtain ⟨zs, rfl⟩ := h
  rw [List.drop_left, List.prefix_append_right_inj]
  exact List.take_prefix n zs

section

variable {ε S E : Type} {P : Peer ε S E} {calm : Prop} {requests replies : List (PacketType × Bytes)}
  {queued : List Packet} {Inv : S → Prop}

lemma start_coupled {server : S} (hserver : Inv server) (harrived : P.arrived server = [])
    (p : Packet) : Coupled P calm replies queued Inv (start p queued server) where
  client := ⟨[], ServiceClient.start_follows calm replies p, Or.inr ⟨queued, rfl, rfl⟩⟩
  server := hserver
  sent := by
    rw [start, harrived]
    exact List.nil_prefix
  returned := List.nil_prefix

variable (hP : P.Serves calm requests replies Inv)
  (hsend : ∀ q ∈ replies, q.2.length ≤ maxBodyLength ∧ 0 ∈ q.2)
  (hqueued : queued.flatMap wire = requests.flatMap frame) {x : Exchange S}
  (h : Coupled P calm replies queued Inv x)

include h

lemma Coupled.of_client {tasks : List Endpoint.Event} {e : Endpoint.Event} {t : Endpoint}
    {pushed : List Packet} (ht : Endpoint.step ServiceClient.callbacks x.client e = .ok t)
    (hf : ServiceClient.Follows calm replies t pushed)
    (htasks : tasks = [] ∧ pushed = queued ∨
      ∃ rest, tasks = rest.map .write ++ [.close] ∧ pushed ++ rest = queued)
    (hout : x.client.outbox.out <+: t.outbox.out) (hreturned : t.arrived <+: P.out x.server) :
    ∃ y, (clientStep { x with tasks := tasks } e : Except (Fault Container ⊕ ε) _) = .ok y ∧
      Coupled P calm replies queued Inv y := by
  refine ⟨{ x with tasks := tasks, client := t }, by rw [clientStep, ht], ?_⟩
  exact ⟨⟨pushed, hf, htasks⟩, h.server, h.sent.trans hout, hreturned⟩

lemma Coupled.printed_prefix : x.client.printed <+: replies.map ServiceClient.shown := by
  obtain ⟨pushed, hf, -⟩ := h.client
  obtain ⟨k, -, hprinted⟩ := hf.reads
  rw [hprinted, List.map_take]
  exact List.take_prefix _ _

include hP hsend hqueued

lemma Coupled.step {e : Event E} (he : e.CanOccur P x) (hcalm : calm → ¬ e.Fails P) :
    ∃ y, Exchange.step P x e = .ok y ∧ Coupled P calm replies queued Inv y := by
  obtain ⟨pushed, hf, htasks⟩ := h.client
  cases e with
  | client e =>
    obtain ⟨t, ht, hf', hout, harrived⟩ := hf.step hsend he.1 he.2 hcalm
    exact h.of_client ht hf' htasks hout (harrived ▸ h.returned)
  | task =>
    rcases htasks with ⟨hnil, -⟩ | ⟨rest, hrest, hall⟩
    · exact (he hnil).elim
    · cases rest with
      | nil =>
        rw [List.append_nil] at hall
        rw [Exchange.step, hrest]
        exact h.of_client rfl hf.close (Or.inl ⟨rfl, hall⟩) List.prefix_rfl h.returned
      | cons p rest =>
        obtain ⟨t, ht, hf', hout, harrived⟩ := hf.write p
        rw [Exchange.step, hrest]
        refine h.of_client ht hf' (Or.inr ⟨rest, rfl, ?_⟩) ?_ (harrived ▸ h.returned)
        · rw [← hall, List.append_assoc]
          rfl
        · exact hout ▸ List.prefix_rfl
  | server e =>
    obtain ⟨t, ht, hinv, harrived, hout⟩ := hP.step x.server e h.server he hcalm
    refine ⟨{ x with server := t }, by rw [Exchange.step, ht], ⟨pushed, hf, htasks⟩, hinv, ?_, ?_⟩
    · rw [harrived]
      exact h.sent
    · exact h.returned.trans hout
  | toServer n =>
    have hnext := prefix_drop_take h.sent n
    have hall : pushed.flatMap wire <+: requests.flatMap frame := by
      rw [← hqueued]
      rcases htasks with ⟨-, rfl⟩ | ⟨rest, -, rfl⟩
      · exact List.prefix_rfl
      · rw [List.flatMap_append]
        exact List.prefix_append _ _
    obtain ⟨hinv, harrived, hout⟩ := hP.arrive x.server _ h.server
      (hnext.trans (hf.flows.out_prefix.trans hall))
    refine ⟨_, rfl, ⟨pushed, hf, htasks⟩, hinv, ?_, ?_⟩
    · rw [harrived]
      exact hnext
    · rw [hout]
      exact h.returned
  | toClient n =>
    have hnext := prefix_drop_take h.returned n
    have hf' := hf.arrive (hnext.trans (hP.out x.server h.server))
    exact h.of_client (e := .arrive _) rfl hf' htasks List.prefix_rfl hnext

lemma Coupled.done (hc : calm) (hd : Done P x) :
    x.client.printed = replies.map ServiceClient.shown := by
  obtain ⟨pushed, hf, htasks⟩ := h.client
  obtain ⟨hout, hall⟩ := hf.idle hsend hc hd.client
  obtain rfl : pushed = queued := by
    rcases htasks with ⟨-, hq⟩ | ⟨rest, hrest, hq⟩
    · exact hq
    · cases rest with
      | nil => rw [← hq, List.append_nil]
      | cons p rest =>
        have hclose := hd.tasks (.write p) (by rw [hrest]; simp)
        cases hclose
  refine hall ?_
  rw [hd.returned]
  exact hP.idle x.server h.server hc hd.server (by rw [hd.sent, hout, hqueued])

end

lemma Reached.printed {ε S E : Type} {P : Peer ε S E} {requests replies : List (PacketType × Bytes)}
    {Inv : Prop → S → Prop} (hP : ∀ calm, P.Serves calm requests replies (Inv calm))
    (hsend : ∀ q ∈ replies, q.2.length ≤ maxBodyLength ∧ 0 ∈ q.2) {queued : List Packet}
    (hqueued : queued.flatMap wire = requests.flatMap frame) {server : S}
    (hserver : ∀ calm, Inv calm server) (harrived : P.arrived server = []) {p : Packet}
    {events : List (Event E)} {x : Exchange S} (h : Reached P (start p queued server) events x) :
    x.client.printed <+: replies.map ServiceClient.shown ∧
    (∀ e, e.CanOccur P x → ∃ y, step P x e = .ok y) ∧
    ((∀ e ∈ events, ¬ e.Fails P) → Done P x →
      x.client.printed = replies.map ServiceClient.shown) := by
  have coupled (calm : Prop) (hcalm : calm → ∀ e ∈ events, ¬ e.Fails P) :
      Coupled P calm replies queued (Inv calm) x := by
    refine Runs.Run.invariant_of_mem (P := Coupled P calm replies queued (Inv calm)) h ?_
      (start_coupled (hserver calm) harrived p)
    intro x y e hmem hx he hy
    obtain ⟨y', hy', hcoupled⟩ := hx.step (hP calm) hsend hqueued he (fun hc => hcalm hc e hmem)
    rw [hy, Except.ok.injEq] at hy'
    rwa [hy']
  have hany := coupled False False.elim
  refine ⟨hany.printed_prefix, fun e he => ?_, fun hcalm hd => ?_⟩
  · obtain ⟨y, hy, -⟩ := hany.step (hP False) hsend hqueued he False.elim
    exact ⟨y, hy⟩
  · exact (coupled _ id).done (hP _) hsend hqueued hcalm hd

end Exchange

end WordModel
