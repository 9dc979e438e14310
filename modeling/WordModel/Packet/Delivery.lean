import WordModel.Packet.Exchange
import WordModel.Packet.Progress

/-! Everything arrives: an exchange in which nothing fails comes to a state in which nothing is
left to be done, whatever the order of its events, and cannot go on beyond it. -/

namespace WordModel

open Checked Decimal Packet Endpoint Stretches

namespace ServiceClient

lemma callbacks_steady : callbacks.Steady where
  opened s := ⟨s.opening, s.printed, rfl⟩
  header := ⟨Endpoint.close, rfl⟩
  body s t ht := by
    obtain ⟨m, hm, ht⟩ := bind_eq_ok.mp ht
    obtain ⟨text, -, hm⟩ := bind_eq_ok.mp hm
    obtain rfl := Except.ok.inj hm
    exact ⟨s.outbox, _, Nat.le_refl _, (Except.ok.inj ht).symm⟩
  written s := rfl

lemma succeeds_iff {e : Endpoint.Event} : e.Succeeds ↔ Own e ∧ ¬ Fails e := by
  constructor
  · rintro (_ | _ | _ | _) <;> simp [Own, Fails]
  · rintro ⟨hown, hfail⟩
    cases e with
    | opened ec =>
      obtain rfl : ec = false := by simpa [Fails] using hfail
      exact .opened
    | write p => exact hown.elim
    | close => exact hown.elim
    | arrive bytes => exact hown.elim
    | read ec n =>
      obtain rfl : ec = false := by simpa [Fails] using hfail
      exact .read n
    | transmit i n => exact .transmit i n
    | written i ec =>
      obtain rfl : ec = false := by simpa [Fails] using hfail
      exact .written i

end ServiceClient

/-- A server that comes further with each event and that goes on until it is idle -/
structure Peer.Live {ε S E : Type} (P : Peer ε S E) (progress : S → ℕ) (bound : ℕ)
    (Inv : S → Prop) : Prop where
  step : ∀ s e t, Inv s → P.CanOccur s e → ¬ P.Fails e → P.step s e = .ok t →
    t = s ∨ progress s < progress t
  arrive : ∀ s bytes, progress (P.arrive s bytes) = progress s + bytes.length
  arrive_nil : ∀ s, P.arrive s [] = s
  le : ∀ s, Inv s → progress s ≤ bound
  goes_on : ∀ s, Inv s → ¬ P.Idle s →
    ∃ e, P.CanOccur s e ∧ ¬ P.Fails e ∧ ∀ t, P.step s e = .ok t → t ≠ s

namespace Exchange

section

variable {ε S E : Type} (P : Peer ε S E)

def Event.Closes (x : Exchange S) : Event E → Prop
  | .task => x.tasks.head? = some .close
  | _ => False

/-- The event changes something, and it is neither a failure nor the end of the input. -/
def Event.Goes (x : Exchange S) (e : Event E) : Prop :=
  e.CanOccur P x ∧ ¬ e.Fails P ∧ ¬ e.Closes x ∧ ∃ y, step P x e = .ok y ∧ y ≠ x

abbrev Going (s : Exchange S) (events : List (Event E)) (x : Exchange S) : Prop :=
  Runs.Run (step P) (fun x e => e.Goes P x) s events x

def progress (μ : S → ℕ) (x : Exchange S) : ℕ := x.client.progress + μ x.server

structure Running (replies : List (PacketType × Bytes)) (queued : List Packet) (Inv : S → Prop)
    (x : Exchange S) : Prop where
  coupled : Coupled P True replies queued Inv x
  attached : x.client.Attached
  tasks : x.tasks ≠ []

end

lemma clientStep_eq_ok {ε S : Type} {x y : Exchange S} {e : Endpoint.Event} :
    (clientStep x e : Except (Fault Container ⊕ ε) _) = .ok y ↔
      ∃ t, Endpoint.step ServiceClient.callbacks x.client e = .ok t ∧ y = { x with client := t } := by
  rw [clientStep]
  cases Endpoint.step ServiceClient.callbacks x.client e with
  | error e => simp
  | ok t => simp [eq_comm]

lemma serverStep_eq_ok {ε S E : Type} {P : Peer ε S E} {x y : Exchange S} {e : E} :
    step P x (.server e) = .ok y ↔
      ∃ t, P.step x.server e = .ok t ∧ y = { x with server := t } := by
  rw [step]
  cases P.step x.server e with
  | error e => simp
  | ok t => simp [eq_comm]

section

variable {ε S E : Type} {P : Peer ε S E} {requests replies : List (PacketType × Bytes)}
  {queued : List Packet} {Inv : S → Prop} {μ : S → ℕ} {bound : ℕ}
  (hP : P.Serves True requests replies Inv) (hlive : P.Live μ bound Inv)
  (hsend : ∀ q ∈ replies, q.2.length ≤ maxBodyLength ∧ 0 ∈ q.2)
  (hqueued : queued.flatMap wire = requests.flatMap frame) {x y : Exchange S}
  (h : Running P replies queued Inv x)

include h

lemma Running.queue : ∃ rest : List Packet, x.tasks = rest.map .write ++ [.close] := by
  obtain ⟨pushed, -, ⟨hnil, -⟩ | ⟨rest, hrest, -⟩⟩ := h.coupled.client
  · exact (h.tasks hnil).elim
  · exact ⟨rest, hrest⟩

include hP hlive hsend hqueued

lemma Running.step {e : Event E} (he : e.Goes P x) (hy : Exchange.step P x e = .ok y) :
    Running P replies queued Inv y ∧ progress μ x < progress μ y := by
  obtain ⟨hcan, hfail, hopen, y', hy', hne⟩ := he
  obtain rfl := Except.ok.inj (hy.symm.trans hy')
  obtain ⟨y', hy', hcoupled⟩ := h.coupled.step hP hsend hqueued hcan (fun _ => hfail)
  obtain rfl := Except.ok.inj (hy.symm.trans hy')
  obtain ⟨pushed, hf, -⟩ := h.coupled.client
  obtain ⟨k, hk, -⟩ := hf.reads
  cases e with
  | client e =>
    obtain ⟨t, ht, rfl⟩ := clientStep_eq_ok.mp hy
    obtain ⟨hfurther, ha⟩ := hk.succeeds ServiceClient.callbacks_steady
      (fun q hq => (hsend q hq).1) hcan.1 (ServiceClient.succeeds_iff.mpr ⟨hcan.2, hfail⟩) ht
    refine ⟨⟨hcoupled, ha h.attached, h.tasks⟩, ?_⟩
    rcases hfurther with rfl | hlt
    · exact (hne rfl).elim
    · exact Nat.add_lt_add_right hlt _
  | task =>
    obtain ⟨rest, hrest⟩ := h.queue
    cases rest with
    | nil => exact (hopen (by rw [Event.Closes, hrest]; rfl)).elim
    | cons p rest =>
      rw [Exchange.step, hrest] at hy
      obtain ⟨t, ht, rfl⟩ := clientStep_eq_ok.mp hy
      obtain ⟨outbox, hpush, ht⟩ := bind_eq_ok.mp ht
      obtain rfl := Except.ok.inj ht
      refine ⟨⟨hcoupled, h.attached, List.concat_ne_nil _ _⟩, ?_⟩
      simp only [progress, Endpoint.progress, Outbox.progress_push hpush, List.length_singleton]
      omega
  | server e =>
    obtain ⟨t, ht, rfl⟩ := serverStep_eq_ok.mp hy
    refine ⟨⟨hcoupled, h.attached, h.tasks⟩, ?_⟩
    rcases hlive.step _ _ _ h.coupled.server hcan hfail ht with rfl | hlt
    · exact (hne rfl).elim
    · exact Nat.add_lt_add_left hlt _
  | toServer n =>
    rw [Exchange.step, Except.ok.injEq] at hy
    subst hy
    refine ⟨⟨hcoupled, h.attached, h.tasks⟩, ?_⟩
    generalize (x.client.outbox.out.drop (P.arrived x.server).length).take n = bytes at hne ⊢
    cases bytes with
    | nil =>
      rw [hlive.arrive_nil] at hne
      exact (hne rfl).elim
    | cons b bytes =>
      simp only [progress, hlive.arrive, List.length_cons]
      omega
  | toClient n =>
    rw [Exchange.step] at hy
    obtain ⟨t, ht, rfl⟩ := clientStep_eq_ok.mp hy
    obtain rfl := Except.ok.inj ht
    refine ⟨⟨hcoupled, h.attached, h.tasks⟩, ?_⟩
    generalize ((P.out x.server).drop x.client.arrived.length).take n = bytes at hne ⊢
    cases bytes with
    | nil =>
      rw [List.append_nil] at hne
      exact (hne rfl).elim
    | cons b bytes =>
      simp only [progress, Endpoint.progress, List.length_append, List.length_cons]
      omega

lemma Running.done (hstuck : ∀ e, ¬ Event.Goes P x e) : Done P x := by
  have go (e : Event E) (hcan : e.CanOccur P x) (hfail : ¬ e.Fails P) (hopen : ¬ e.Closes x)
      (hne : ∀ y, Exchange.step P x e = .ok y → y ≠ x) : False := by
    obtain ⟨y, hy, -⟩ := h.coupled.step hP hsend hqueued hcan (fun _ => hfail)
    exact hstuck e ⟨hcan, hfail, hopen, y, hy, hne y hy⟩
  have short {xs ys : Bytes} (hp : xs <+: ys) (hxy : xs ≠ ys) :
      0 < ((ys.drop xs.length).take ys.length).length := by
    have hlt : xs.length < ys.length :=
      Nat.lt_of_le_of_ne hp.length_le fun hlen => hxy (hp.eq_of_length hlen)
    rw [List.length_take, List.length_drop]
    omega
  obtain ⟨pushed, hf, -⟩ := h.coupled.client
  obtain ⟨k, hk, -⟩ := hf.reads
  refine ⟨?_, ?_, ?_, ?_, ?_⟩
  · obtain ⟨rest, hrest⟩ := h.queue
    cases rest with
    | nil =>
      rw [hrest]
      simp
    | cons p rest =>
      refine (go .task h.tasks id (fun hc => ?_) fun y hy hyx => ?_).elim
      · rw [Event.Closes, hrest] at hc
        cases hc
      · rw [Exchange.step, hrest] at hy
        obtain ⟨t, -, rfl⟩ := clientStep_eq_ok.mp hy
        have hsame := congrArg (fun x => x.tasks.length) hyx
        rw [hrest, List.map_cons, List.cons_append, List.length_cons] at hsame
        exact absurd hsame (Nat.ne_of_lt (Nat.lt_succ_self _))
  · by_contra hi
    obtain ⟨e, hcan, hs, hne⟩ := hk.goes_on ServiceClient.callbacks_steady
      (fun q hq => (hsend q hq).1) hf.flows h.attached hi
    obtain ⟨hown, hfail⟩ := ServiceClient.succeeds_iff.mp hs
    refine go (.client e) ⟨hcan, hown⟩ hfail id fun y hy hyx => ?_
    obtain ⟨t, ht, rfl⟩ := clientStep_eq_ok.mp hy
    exact hne t ht (congrArg client hyx)
  · by_contra hi
    obtain ⟨e, hcan, hfail, hne⟩ := hlive.goes_on x.server h.coupled.server hi
    refine go (.server e) hcan hfail id fun y hy hyx => ?_
    obtain ⟨t, ht, rfl⟩ := serverStep_eq_ok.mp hy
    exact hne t ht (congrArg server hyx)
  · by_contra hs
    have hpos := short h.coupled.sent hs
    refine go (.toServer x.client.outbox.out.length) trivial id id fun y hy hyx => ?_
    rw [Exchange.step, Except.ok.injEq] at hy
    subst hy
    have hsame := congrArg μ (congrArg server hyx)
    dsimp only at hsame
    rw [hlive.arrive] at hsame
    omega
  · by_contra hr
    have hpos := short h.coupled.returned hr
    refine go (.toClient (P.out x.server).length) trivial id id fun y hy hyx => ?_
    rw [Exchange.step] at hy
    obtain ⟨t, ht, rfl⟩ := clientStep_eq_ok.mp hy
    obtain rfl := Except.ok.inj ht
    have hsame := congrArg (fun x => x.client.arrived.length) hyx
    dsimp only at hsame
    rw [List.length_append] at hsame
    omega

end

lemma Going.reached {ε S E : Type} {P : Peer ε S E} {s x : Exchange S} {events : List (Event E)}
    (h : Going P s events x) : Reached P s events x ∧ ∀ e ∈ events, ¬ e.Fails P :=
  ⟨h.mono fun _ _ he => he.1, h.forall_mem fun _ _ he => he.2.1⟩

section

variable {ε S E : Type} {P : Peer ε S E} {requests replies : List (PacketType × Bytes)}
  {Inv : S → Prop} {μ : S → ℕ} {bound : ℕ} (hP : P.Serves True requests replies Inv)
  (hlive : P.Live μ bound Inv) (hsend : ∀ q ∈ replies, q.2.length ≤ maxBodyLength ∧ 0 ∈ q.2)
  {queued : List Packet} (hqueued : queued.flatMap wire = requests.flatMap frame) {server : S}
  (hserver : Inv server) (harrived : P.arrived server = [])

include hP hlive hsend hqueued hserver harrived

lemma Going.running {p : Packet} {events : List (Event E)} {x : Exchange S}
    (h : Going P (start p queued server) events x) :
    Running P replies queued Inv x ∧
      events.length ≤ 2 * (requests.flatMap frame).length + 2 * (replies.flatMap frame).length + 1 +
        bound := by
  obtain ⟨hx, hlength⟩ := h.length_add_le (P := Running P replies queued Inv) (f := progress μ)
    (fun x e y hx he hy => hx.step hP hlive hsend hqueued he hy)
    ⟨start_coupled hserver harrived p, ⟨rfl, Or.inr rfl⟩, by simp [start]⟩
  refine ⟨hx, ?_⟩
  obtain ⟨pushed, hf, htasks⟩ := hx.coupled.client
  obtain ⟨k, hk, -⟩ := hf.reads
  have hpushed : pushed <+: queued := by
    rcases htasks with ⟨-, rfl⟩ | ⟨rest, -, rfl⟩
    · exact List.prefix_rfl
    · exact List.prefix_append _ _
  have hsent : (pushed.flatMap wire).length ≤ (requests.flatMap frame).length := by
    obtain ⟨rest, rfl⟩ := hpushed
    rw [← hqueued, List.flatMap_append, List.length_append]
    exact Nat.le_add_right _ _
  have hclient := hk.progress_le hf.flows
  have hbound := hlive.le x.server hx.coupled.server
  simp only [progress] at hlength
  omega

lemma Going.delivered {p : Packet} {events : List (Event E)} {x : Exchange S}
    (h : Going P (start p queued server) events x) :
    events.length ≤ 2 * (requests.flatMap frame).length + 2 * (replies.flatMap frame).length + 1 +
      bound ∧ ((∀ e, ¬ Event.Goes P x e) → x.client.printed = replies.map ServiceClient.shown) := by
  obtain ⟨hx, hlength⟩ := h.running hP hlive hsend hqueued hserver harrived
  refine ⟨hlength, fun hstuck => ?_⟩
  exact hx.coupled.done hP hsend hqueued trivial (hx.done hP hlive hsend hqueued hstuck)

lemma Going.exists_done (p : Packet) : ∃ (events : List (Event E)) (x : Exchange S),
    Going P (start p queued server) events x ∧ (∀ e, ¬ Event.Goes P x e) ∧ Done P x := by
  have hrun {events : List (Event E)} {x : Exchange S} (h : Going P (start p queued server) events x) :=
    h.running hP hlive hsend hqueued hserver harrived
  obtain ⟨events, x, h, hstuck⟩ : ∃ (events : List (Event E)) (x : Exchange S),
      Going P (start p queued server) events x ∧ ∀ e, ¬ Event.Goes P x e :=
    Runs.Run.exists_stuck (fun events x h => (hrun h).2) (fun x e ⟨_, _, _, y, hy, _⟩ => ⟨y, hy⟩)
  obtain ⟨hx, -⟩ := hrun h
  exact ⟨events, x, h, hstuck, hx.done hP hlive hsend hqueued hstuck⟩

end

end Exchange

end WordModel
