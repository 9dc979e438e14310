import WordModel.Library.Runs
import Mathlib.Tactic.Common

/-! Models stacked in levels, from the smallest token size to the largest. A level whose
interface is detected makes every level above it commit. -/

namespace WordModel

/-- What the multiplexer uses of the type of its models. -/
structure ModelType (ε M : Type) where
  putc : M → UInt8 → M × Bool
  interface : M → Bool → Except ε M

structure ModelMultiplexer (M : Type) where
  models : List M
  interface : Bool

namespace ModelMultiplexer

inductive Fault (ε : Type) where
  | noModels
  | model (e : ε)

variable {ε M N : Type} (mt : ModelType ε M)

def putcLevels (c : UInt8) : List M → Bool → Except ε (List M × Bool)
  | [], interface => .ok ([], interface)
  | m :: ms, interface =>
    if !interface then do
      let (m, interface) := mt.putc m c
      let (ms, interface) ← putcLevels c ms interface
      return (m :: ms, interface)
    else do
      let m ← mt.interface m interface
      let (ms, interface) ← putcLevels c ms interface
      return (m :: ms, interface)

def putc (s : ModelMultiplexer M) (c : UInt8) :
    Except (Fault ε) (ModelMultiplexer M × Bool) :=
  match s.models with
  | [] => .error .noModels
  | m :: ms => do
    let (m, interface) := mt.putc m c
    let m ← (mt.interface m true).mapError .model
    let (ms, interface) ← (putcLevels mt c ms interface).mapError .model
    return (⟨m :: ms, interface⟩, interface)

def putcs (s : ModelMultiplexer M) (cs : List UInt8) : Except (Fault ε) (ModelMultiplexer M) :=
  cs.foldlM (fun s c => do
    let (s, _) ← putc mt s c
    return s) s

lemma putcLevels_rule {P Q : M → Prop} {right : Prop} {c : UInt8} {interface : Bool}
    {ms : List M} (hms : ∀ m ∈ ms, P m)
    (hcommit : right → ∀ m, P m → ∃ m', mt.interface m true = .ok m' ∧ Q m')
    (hflag : interface = true → right)
    (hputc : interface = false → ∀ m, P m →
      Q (mt.putc m c).1 ∧ ((mt.putc m c).2 = true → right)) :
    ∃ ms' interface', putcLevels mt c ms interface = .ok (ms', interface') ∧
      ms'.length = ms.length ∧ ∀ m ∈ ms', Q m := by
  induction ms generalizing interface with
  | nil => exact ⟨[], interface, rfl, rfl, by simp⟩
  | cons m ms ih =>
    have hrest : ∀ x ∈ ms, P x := fun x hx => hms x (by simp [hx])
    cases interface with
    | true =>
      obtain ⟨m', hm', hq⟩ := hcommit (hflag rfl) m (hms m (by simp))
      obtain ⟨ms', interface', he, hlen, hms'⟩ := ih hrest hflag (fun hf => by cases hf)
      refine ⟨m' :: ms', interface', ?_, by simp [hlen], ?_⟩
      · rw [putcLevels, if_neg (by simp), hm']
        change (putcLevels mt c ms true >>= _) = _
        rw [he]
        rfl
      · intro x hx
        rcases List.mem_cons.mp hx with rfl | hx
        · exact hq
        · exact hms' x hx
    | false =>
      obtain ⟨hq, hset⟩ := hputc rfl m (hms m (by simp))
      obtain ⟨ms', interface', he, hlen, hms'⟩ := ih hrest hset (fun _ => hputc rfl)
      refine ⟨(mt.putc m c).1 :: ms', interface', ?_, by simp [hlen], ?_⟩
      · rw [putcLevels, if_pos (by simp)]
        dsimp only
        rw [he]
        rfl
      · intro x hx
        rcases List.mem_cons.mp hx with rfl | hx
        · exact hq
        · exact hms' x hx

/-- The models of the second type are those of the first, seen through a function. -/
structure Watched (mt : ModelType ε M) (mt' : ModelType ε N) (f : M → N) : Prop where
  putc : ∀ m c, mt'.putc (f m) c = (f (mt.putc m c).1, (mt.putc m c).2)
  interface : ∀ m b, mt'.interface (f m) b = (mt.interface m b).map f

def view (f : M → N) (s : ModelMultiplexer M) : ModelMultiplexer N :=
  ⟨s.models.map f, s.interface⟩

variable {mt} {mt' : ModelType ε N} {f : M → N} (h : Watched mt mt' f)

include h

lemma Watched.putcLevels (c : UInt8) (ms : List M) (interface : Bool) :
    ModelMultiplexer.putcLevels mt' c (ms.map f) interface =
      (ModelMultiplexer.putcLevels mt c ms interface).map (Prod.map (List.map f) id) := by
  induction ms generalizing interface with
  | nil => rfl
  | cons m ms ih =>
    rw [List.map_cons, ModelMultiplexer.putcLevels, ModelMultiplexer.putcLevels]
    cases interface with
    | false =>
      simp only [Bool.not_false, if_true, h.putc, ih]
      cases ModelMultiplexer.putcLevels mt c ms (mt.putc m c).2 with
      | error e => rfl
      | ok r => rfl
    | true =>
      simp only [Bool.not_true, Bool.false_eq_true, if_false, h.interface, ih]
      cases mt.interface m true with
      | error e => rfl
      | ok m' =>
        cases ModelMultiplexer.putcLevels mt c ms true with
        | error e => rfl
        | ok r => rfl

lemma Watched.multiplexer (s : ModelMultiplexer M) (c : UInt8) :
    ModelMultiplexer.putc mt' (s.view f) c =
      (ModelMultiplexer.putc mt s c).map (Prod.map (view f) id) := by
  obtain ⟨models, interface⟩ := s
  cases models with
  | nil => rfl
  | cons m ms =>
    simp only [ModelMultiplexer.putc, view, List.map_cons, h.putc, h.interface, h.putcLevels]
    cases mt.interface (mt.putc m c).1 true with
    | error e => rfl
    | ok m' =>
      cases ModelMultiplexer.putcLevels mt c ms (mt.putc m c).2 with
      | error e => rfl
      | ok r => rfl

lemma Watched.putcs (s : ModelMultiplexer M) (cs : List UInt8) :
    ModelMultiplexer.putcs mt' (s.view f) cs = (ModelMultiplexer.putcs mt s cs).map (view f) := by
  induction cs generalizing s with
  | nil => rfl
  | cons c cs ih =>
    rw [ModelMultiplexer.putcs, ModelMultiplexer.putcs, List.foldlM_cons, List.foldlM_cons,
      h.multiplexer]
    cases ModelMultiplexer.putc mt s c with
    | error e => rfl
    | ok r => exact ih r.1

end ModelMultiplexer

end WordModel
