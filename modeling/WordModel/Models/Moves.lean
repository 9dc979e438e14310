import WordModel.Library.Answers
import WordModel.SimpleModel.Modes
import WordModel.BoundedCTModel.Basic

/-! The move constructors of the two models: what a model that is moved answers afterwards. -/

namespace WordModel

open Checked Answers

inductive ModelCall where
  | putc (c : UInt8)
  | interface (interface : Bool)
  | getPrediction (predictionId : Option UInt32)
  | detectedInterface
  | trainingMistakes
  | predictionResult (predictionId : UInt32) (outcome : Bool)

inductive ModelAnswer where
  | done
  | flag (b : Bool)
  | prediction (word : List UInt8)
  | mistakes (n : ℕ)
  deriving DecidableEq

namespace SimpleModel

open WordModel.Parser

-- `training_mistakes` and `prediction_result` are those that `WordModel` has.
def act (m : SimpleModel) : ModelCall → Exec Container (SimpleModel × ModelAnswer)
  | .putc c => .ok ((m.putc c).1, .flag (m.putc c).2)
  | .interface b => do
    let m ← m.interface b
    return (m, .done)
  | .getPrediction predictionId =>
    .ok ((m.getPrediction predictionId).1, .prediction (m.getPrediction predictionId).2)
  | .detectedInterface => .ok (m, .flag m.detectedInterface)
  | .trainingMistakes => .ok (m, .mistakes 0)
  | .predictionResult _ _ => .ok (m, .done)

-- `SimpleModel(SimpleModel&&)` moves three members and says nothing of the others.
def move (m : SimpleModel) (found : Found) : SimpleModel where
  parser := m.parser
  inputString := []
  wordModes := m.wordModes
  delimiters := m.delimiters
  detectedInterface := found.detectedInterface
  prediction := []
  lastPredictionId := found.lastPredictionId
  lastPredictionWeight := found.lastPredictionWeight

inductive Reachable : SimpleModel → Prop
  | constructed {delimiters found m} : construct delimiters found = .ok m → Reachable m
  | called {m c m' a} : Reachable m → m.act c = .ok (m', a) → Reachable m'
  | moved {m} (found) : Reachable m → Reachable (m.move found)

lemma Reachable.trained {m : SimpleModel} (h : m.Reachable) : ∃ log, m.Trained log := by
  induction h with
  | @constructed delimiters found m hm =>
    obtain ⟨m₀, hm₀, htrained⟩ := construct_trained delimiters found
    obtain rfl := Except.ok.inj (hm₀.symm.trans hm)
    exact ⟨[], htrained⟩
  | @called m c m' a _ he ih =>
    obtain ⟨log, htrained⟩ := ih
    cases c with
    | putc c =>
      obtain ⟨rfl, -⟩ := Prod.mk.inj (Except.ok.inj he)
      exact ⟨log, htrained.putc c⟩
    | interface b =>
      obtain ⟨t, ht, he⟩ := bind_eq_ok.mp he
      obtain ⟨rfl, -⟩ := Prod.mk.inj (Except.ok.inj he)
      by_cases hc : b = true ∧ m.inputString ≠ []
      · obtain ⟨rfl, hne⟩ := hc
        obtain ⟨t', ht', hnew, -⟩ := htrained.commit hne
        obtain rfl := Except.ok.inj (ht'.symm.trans ht)
        exact ⟨_, hnew⟩
      · rw [interface_quiet hc] at ht
        obtain rfl := Except.ok.inj ht
        exact ⟨log, htrained⟩
    | getPrediction predictionId =>
      obtain ⟨rfl, -⟩ := Prod.mk.inj (Except.ok.inj he)
      exact ⟨log, htrained.tallied, htrained.nonempty, htrained.idle⟩
    | detectedInterface =>
      obtain ⟨rfl, -⟩ := Prod.mk.inj (Except.ok.inj he)
      exact ⟨log, htrained⟩
    | trainingMistakes =>
      obtain ⟨rfl, -⟩ := Prod.mk.inj (Except.ok.inj he)
      exact ⟨log, htrained⟩
    | predictionResult predictionId outcome =>
      obtain ⟨rfl, -⟩ := Prod.mk.inj (Except.ok.inj he)
      exact ⟨log, htrained⟩
  | moved found _ ih =>
    obtain ⟨log, htrained⟩ := ih
    exact ⟨log, htrained.tallied, htrained.nonempty, htrained.idle⟩

def commits (v : Word) : List ModelCall := v.map .putc ++ [.interface true]

def probe (n : ℕ) : List ModelCall :=
  commits (List.replicate n 97) ++ commits (List.replicate n 98) ++ commits (List.replicate n 97)

lemma type_word {v : Word} (hv : ∀ c ∈ v, c ≠ 0 ∧ c ≠ 8) (m : SimpleModel) :
    ∃ os d, Trace act m (v.map .putc) os
      { m with inputString := m.inputString ++ v, detectedInterface := d } := by
  induction v generalizing m with
  | nil =>
    refine ⟨[], m.detectedInterface, ?_⟩
    rw [List.append_nil]
    exact .nil
  | cons c v ih =>
    obtain ⟨hzero, hback⟩ := hv c (by simp)
    obtain ⟨os, d, h⟩ := ih (fun x hx => hv x (List.mem_cons_of_mem c hx)) (m.putc c).1
    have hputc : m.putc c = detect { m with inputString := m.inputString ++ [c] } := by
      rw [putc, if_neg hzero, if_neg hback]
    have hact : m.act (.putc c) = .ok ((m.putc c).1, .flag (m.putc c).2) := rfl
    rw [hputc] at h hact
    rw [List.append_cons]
    exact ⟨_, d, .cons hact h⟩

lemma act_interface {m m' : SimpleModel} {b : Bool} (h : m.interface b = .ok m') :
    m.act (.interface b) = .ok (m', .done) := by
  rw [act, h]
  rfl

lemma Trained.type_commit {m : SimpleModel} {log : List Word} (h : m.Trained log) {v w : Word}
    (hv : ∀ c ∈ v, c ≠ 0 ∧ c ≠ 8) (hw : m.inputString ++ v = w) (hne : w ≠ []) :
    ∃ os m', Trace act m (commits v) os m' ∧ m'.Trained (log ++ [w]) ∧ m'.inputString = [] ∧
      ((followedBy (log ++ [w]) w).length < 2 ^ 32 →
        m'.prediction = (mostFrequent (followedBy (log ++ [w]) w)).getD []) := by
  subst hw
  obtain ⟨os, d, htyped⟩ := type_word hv m
  have htrained : Trained { m with inputString := m.inputString ++ v, detectedInterface := d } log :=
    ⟨h.tallied, h.nonempty, h.idle⟩
  obtain ⟨m', hm', hnew, hinput, hmode⟩ := htrained.commit hne
  exact ⟨_, m', htyped.append (.cons (act_interface hm') .nil), hnew,
    hinput, fun hlt => (hmode hlt).1⟩

lemma followedBy_of_not_mem {log : List Word} {w : Word} (h : w ∉ log) : followedBy log w = [] := by
  by_contra hne
  exact h (mem_of_followedBy hne)

lemma followedBy_probe {log : List Word} {s u x : Word} (hs : s ∉ log) (hx : x ≠ s) :
    followedBy (log ++ [u] ++ [x] ++ [s]) s = if u = s then [x] else [] := by
  have hlog : log.getLast? ≠ some s := fun hlast => hs (List.mem_of_getLast? hlast)
  rw [followedBy_concat, followedBy_concat, followedBy_concat, followedBy_of_not_mem hs, if_neg hlog,
    List.getLast?_concat, List.getLast?_concat, if_neg (fun h => hx (Option.some.inj h))]
  simp

lemma Trained.probe {m : SimpleModel} {log : List Word} (h : m.Trained log) {n : ℕ} (hn : 0 < n)
    (hnew : List.replicate n 97 ∉ log) : ∃ os m', Trace act m (probe n) os m' ∧
      m'.prediction = if m.inputString = [] then List.replicate n 98 else [] := by
  have hletters (c : UInt8) (hc : c ≠ 0 ∧ c ≠ 8) : ∀ x ∈ List.replicate n c, x ≠ 0 ∧ x ≠ 8 :=
    fun x hx => List.eq_of_mem_replicate hx ▸ hc
  have hzero := Nat.pos_iff_ne_zero.mp hn
  have hne (c : UInt8) : List.replicate n c ≠ [] := by simp [hzero]
  have hx : List.replicate n (98 : UInt8) ≠ List.replicate n 97 := by simp [hzero]
  obtain ⟨os₁, m₁, h₁, ht₁, hi₁, -⟩ := h.type_commit (hletters 97 (by decide)) rfl
    (by simp [hzero])
  obtain ⟨os₂, m₂, h₂, ht₂, hi₂, -⟩ := ht₁.type_commit (hletters 98 (by decide))
    (by rw [hi₁, List.nil_append]) (hne 98)
  obtain ⟨os₃, m₃, h₃, -, -, hmode⟩ := ht₂.type_commit (hletters 97 (by decide))
    (by rw [hi₂, List.nil_append]) (hne 97)
  refine ⟨_, m₃, (h₁.append h₂).append h₃, ?_⟩
  rw [followedBy_probe hnew hx] at hmode
  by_cases hinput : m.inputString = []
  · rw [if_pos hinput]
    rw [hinput, List.nil_append, if_pos rfl] at hmode
    exact hmode (Nat.one_lt_two_pow (by decide))
  · rw [if_neg hinput]
    have hother : m.inputString ++ List.replicate n 97 ≠ List.replicate n 97 := by
      simpa using hinput
    rw [if_neg hother] at hmode
    exact hmode (by decide)

/-- The models differ in what belongs to the weight of the last prediction only. -/
def Alike (m m' : SimpleModel) : Prop :=
  ∃ id weight, m' = { m with lastPredictionId := id, lastPredictionWeight := weight }

lemma Alike.putc {m m' : SimpleModel} (h : m.Alike m') (c : UInt8) :
    (m.putc c).2 = (m'.putc c).2 ∧ (m.putc c).1.Alike (m'.putc c).1 := by
  obtain ⟨id, weight, rfl⟩ := h
  rw [SimpleModel.putc, SimpleModel.putc]
  by_cases hzero : c = 0
  · rw [if_pos hzero, if_pos hzero]
    exact ⟨rfl, id, weight, rfl⟩
  rw [if_neg hzero, if_neg hzero]
  by_cases hback : c = 8
  · rw [if_pos hback, if_pos hback]
    by_cases hinput : 0 < m.inputString.length
    · rw [if_pos hinput, if_pos hinput]
      exact ⟨rfl, id, weight, rfl⟩
    · rw [if_neg hinput, if_neg hinput]
      exact ⟨rfl, id, weight, rfl⟩
  · rw [if_neg hback, if_neg hback]
    exact ⟨rfl, id, weight, rfl⟩

lemma Alike.interface {m m' : SimpleModel} (h : m.Alike m') (b : Bool) :
    (∃ t t', m.interface b = .ok t ∧ m'.interface b = .ok t' ∧ t.Alike t') ∨
    ∃ e, m.interface b = .error e ∧ m'.interface b = .error e := by
  obtain ⟨id, weight, rfl⟩ := h
  rw [SimpleModel.interface, SimpleModel.interface]
  by_cases hc : (b && 0 < m.inputString.length) = true
  · rw [if_pos hc, if_pos hc]
    cases m.parser.addWord m.inputString with
    | error e => exact Or.inr ⟨e, rfl, rfl⟩
    | ok p =>
      simp only [ok_bind, doTrain]
      cases (List.range p.wordNumber).foldlM (trainWord p) ⟨m.wordModes, 0, [], []⟩ with
      | error e => exact Or.inr ⟨e, rfl, rfl⟩
      | ok t => exact Or.inl ⟨_, _, rfl, rfl, id, _, rfl⟩
  · rw [if_neg hc, if_neg hc]
    exact Or.inl ⟨_, _, rfl, rfl, id, weight, rfl⟩

lemma alike_inStep : InStep act act Alike := by
  intro m m' c h
  cases c with
  | putc c =>
    obtain ⟨hflag, halike⟩ := h.putc c
    exact Or.inl ⟨_, _, _, rfl, by rw [act, hflag], halike⟩
  | interface b =>
    rcases h.interface b with ⟨t, t', ht, ht', halike⟩ | ⟨e, ht, ht'⟩
    · exact Or.inl ⟨t, t', .done, act_interface ht, act_interface ht', halike⟩
    · exact Or.inr ⟨e, by rw [act, ht]; rfl, by rw [act, ht']; rfl⟩
  | getPrediction predictionId =>
    obtain ⟨id, weight, rfl⟩ := h
    exact Or.inl ⟨_, _, _, rfl, rfl, _, weight, rfl⟩
  | detectedInterface =>
    obtain ⟨id, weight, rfl⟩ := h
    exact Or.inl ⟨_, _, _, rfl, rfl, id, weight, rfl⟩
  | trainingMistakes => exact Or.inl ⟨m, m', _, rfl, rfl, h⟩
  | predictionResult predictionId outcome => exact Or.inl ⟨m, m', _, rfl, rfl, h⟩

lemma Reachable.inputString_eq_nil {m : SimpleModel} (h : m.Reachable) {found : Found}
    (hsame : ∀ calls, answers act (m.move found) calls = answers act m calls) :
    m.inputString = [] := by
  by_contra hne
  obtain ⟨log, htrained⟩ := h.trained
  obtain ⟨n, hn, hnew⟩ : ∃ n, 0 < n ∧ List.replicate n 97 ∉ log := by
    refine ⟨log.flatten.length + 1, Nat.succ_pos _, fun hmem => ?_⟩
    have hle := (List.sublist_flatten_of_mem hmem).length_le
    rw [List.length_replicate] at hle
    omega
  have hmoved : (m.move found).Trained log :=
    ⟨htrained.tallied, htrained.nonempty, htrained.idle⟩
  obtain ⟨os, t, ht, hprediction⟩ := htrained.probe hn hnew
  obtain ⟨os', t', ht', hprediction'⟩ := hmoved.probe hn hnew
  rw [if_neg hne] at hprediction
  rw [if_pos (show (m.move found).inputString = [] from rfl)] at hprediction'
  have hq := hsame (probe n ++ [.getPrediction none])
  rw [ht.answers_concat (i := .getPrediction none) rfl,
    ht'.answers_concat (i := .getPrediction none) rfl] at hq
  have hlast := (List.append_inj' (Except.ok.inj hq) rfl).2
  have heq : t'.prediction = t.prediction := by simpa [getPrediction] using hlast
  rw [hprediction, hprediction'] at heq
  simp only [List.replicate_eq_nil_iff] at heq
  omega

lemma Reachable.move_iff {m : SimpleModel} (h : m.Reachable) (found : Found) :
    (∀ calls, answers act (m.move found) calls = answers act m calls) ↔
      m.inputString = [] ∧ m.prediction = [] ∧ found.detectedInterface = m.detectedInterface := by
  constructor
  · intro hsame
    have hprediction := hsame [.getPrediction none]
    have hdetected := hsame [.detectedInterface]
    refine ⟨h.inputString_eq_nil hsame, ?_, ?_⟩
    · simpa [answers, act, getPrediction, move, bind, Except.bind, eq_comm] using hprediction
    · simpa [answers, act, move, bind, Except.bind] using hdetected
  · rintro ⟨hinput, hprediction, hdetected⟩ calls
    have halike : m.Alike (m.move found) := by
      refine ⟨found.lastPredictionId, found.lastPredictionWeight, ?_⟩
      rw [move, hinput, hprediction, hdetected]
    exact (alike_inStep.answers_eq halike calls).symm

end SimpleModel

-- `ContextTree(ContextTree&&)`; the visitor is kept by the object that the tree is part of.
def ContextTree.move {DataType ContextData : Type} (t : ContextTree DataType ContextData) :
    ContextTree DataType ContextData where
  tree := t.tree
  root := t.root
  vertexNumber := t.vertexNumber
  tokens := t.tokens
  maxContexts := t.maxContexts
  contexts := t.contexts
  activeIds := t.activeIds
  inactiveIds := t.inactiveIds

namespace BoundedCTModel

variable (p : Platform)

def act (m : BoundedCTModel) : ModelCall → Exec ContextTree.Container (BoundedCTModel × ModelAnswer)
  | .putc c => .ok ((m.putc c).1, .flag (m.putc c).2)
  | .interface b => do
    let m ← interface p m b
    return (m, .done)
  | .getPrediction predictionId => do
    let (m, _, word) ← m.getPrediction (predictionId.map UInt32.toNat)
    return (m, .prediction word)
  | .detectedInterface => .ok (m, .flag m.detectedInterface)
  | .trainingMistakes => .ok (m, .mistakes m.trainingMistakes)
  | .predictionResult predictionId outcome => do
    let m ← predictionResult p m predictionId.toNat outcome
    return (m, .done)

def callsTree (m : BoundedCTModel) : ModelCall → Bool
  | .interface b => b && 0 < m.currentString.length
  | .predictionResult _ outcome => !outcome
  | _ => false

/-- A model at its address, with the address that `ct_` has for its visitor. -/
structure Object where
  address : ℕ
  visitor : ℕ
  model : BoundedCTModel

inductive Failure where
  | fault (f : Fault ContextTree.Container)
  | stray (visitor : ℕ)

namespace Object

def construct (address : ℕ) (bound : UInt32) (predictionId : ℕ) : Object :=
  ⟨address, address, fresh bound predictionId⟩

-- Callbacks that another object would get are not followed.
def act (o : Object) (c : ModelCall) : Except Failure (Object × ModelAnswer) :=
  if o.model.callsTree c ∧ o.visitor ≠ o.address then .error (.stray o.visitor)
  else match o.model.act p c with
    | .error e => .error (.fault e)
    | .ok (m, a) => .ok ({ o with model := m }, a)

-- `BoundedCTModel(BoundedCTModel&&)`, up to `ct_.set_visitor(this)`
def move (o : Object) (address : ℕ) : Object where
  address := address
  visitor := address
  model :=
    { tokenNumber := o.model.tokenNumber
      prediction := o.model.prediction
      ct := o.model.ct.move
      weights := o.model.weights
      rootWeights := o.model.rootWeights
      wordMap := o.model.wordMap
      words := o.model.words
      predictionContext := o.model.predictionContext
      predictionId := o.model.predictionId
      bound := o.model.bound
      mistakes := o.model.mistakes
      currentString := o.model.currentString
      detectedInterface := o.model.detectedInterface }

inductive Reachable : Object → Prop
  | constructed (address bound predictionId) : Reachable (construct address bound predictionId)
  | called {o c o' a} : Reachable o → o.act p c = .ok (o', a) → Reachable o'
  | moved {o} (address) : Reachable o → Reachable (o.move address)

variable {p}

lemma act_eq_ok {o o' : Object} {c : ModelCall} {a : ModelAnswer} (h : o.act p c = .ok (o', a)) :
    o'.address = o.address ∧ o'.visitor = o.visitor := by
  rw [act] at h
  split at h
  · cases h
  · split at h
    · cases h
    · obtain ⟨rfl, -⟩ := Prod.mk.inj (Except.ok.inj h)
      exact ⟨rfl, rfl⟩

lemma Reachable.visitor_eq {o : Object} (h : Reachable p o) : o.visitor = o.address := by
  induction h with
  | constructed address bound predictionId => rfl
  | called _ he ih =>
    obtain ⟨haddress, hvisitor⟩ := act_eq_ok he
    rw [haddress, hvisitor, ih]
  | moved address _ _ => rfl

structure Same (o o' : Object) : Prop where
  model : o'.model = o.model
  visitor : o.visitor = o.address
  visitor' : o'.visitor = o'.address

lemma same_inStep : InStep (act p) (act p) Same := by
  rintro ⟨address, visitor, m⟩ ⟨address', visitor', m'⟩ c ⟨hmodel, hvisitor, hvisitor'⟩
  dsimp only at hmodel hvisitor hvisitor'
  subst hmodel hvisitor hvisitor'
  rw [act, act, if_neg (fun h => h.2 rfl), if_neg (fun h => h.2 rfl)]
  cases BoundedCTModel.act p m' c with
  | error e => exact Or.inr ⟨_, rfl, rfl⟩
  | ok r => exact Or.inl ⟨_, _, r.2, rfl, rfl, rfl, rfl, rfl⟩

lemma Reachable.move_same {o : Object} (h : Reachable p o) (address : ℕ) :
    Same o (o.move address) :=
  ⟨rfl, h.visitor_eq, rfl⟩

end Object

end BoundedCTModel

theorem moves_law (m : SimpleModel) (hm : SimpleModel.Reachable m) (found : SimpleModel.Found)
    (p : BoundedCTModel.Platform) (o : BoundedCTModel.Object)
    (ho : BoundedCTModel.Object.Reachable p o) (address : ℕ) :
    ((∀ calls, answers SimpleModel.act (m.move found) calls = answers SimpleModel.act m calls) ↔
      m.inputString = [] ∧ m.prediction = [] ∧ found.detectedInterface = m.detectedInterface) ∧
    ∀ calls, answers (BoundedCTModel.Object.act p) (o.move address) calls =
      answers (BoundedCTModel.Object.act p) o calls := by
  refine ⟨hm.move_iff found, fun calls => ?_⟩
  exact (BoundedCTModel.Object.same_inStep.answers_eq (ho.move_same address) calls).symm

theorem moves_law_predicted : ∃ m o, SimpleModel.Reachable m ∧ m.prediction = [98] ∧
    m.detectedInterface = false ∧ BoundedCTModel.Object.Reachable ⟨fun _ _ _ => 0, .faults⟩ o ∧
    o.model.currentString = [97] ∧
    (¬ ∀ calls, answers SimpleModel.act (m.move ⟨0, false, 3, 5⟩) calls =
      answers SimpleModel.act m calls) ∧
    ∀ calls, answers (BoundedCTModel.Object.act ⟨fun _ _ _ => 0, .faults⟩) (o.move 2) calls =
      answers (BoundedCTModel.Object.act ⟨fun _ _ _ => 0, .faults⟩) o calls := by
  -- `a`, `b` and `a` have been committed, and `b` is predicted
  have hm := @SimpleModel.Reachable.constructed SimpleModel.defaultDelimiters ⟨7, true, 3, 5⟩ _ rfl
  have hm := ((hm.called (c := .putc 97) rfl).called (c := .interface true) rfl).called
    (c := .putc 98) rfl
  have hm := ((hm.called (c := .interface true) rfl).called (c := .putc 97) rfl).called
    (c := .interface true) rfl
  have ho := (@BoundedCTModel.Object.Reachable.constructed ⟨fun _ _ _ => 0, .faults⟩ 1 5 7).called
    (c := .putc 97) rfl
  have h := moves_law _ hm ⟨0, false, 3, 5⟩ _ _ ho 2
  refine ⟨_, _, hm, rfl, rfl, ho, rfl, fun hsame => ?_, h.2⟩
  have hprediction := (h.1.mp hsame).2.1
  cases hprediction

theorem moves_law_fails : ∃ m found calls, SimpleModel.Reachable m ∧
    answers SimpleModel.act (m.move found) calls ≠ answers SimpleModel.act m calls := by
  -- a letter is pending, and a space comes after the move
  have h := @SimpleModel.Reachable.constructed SimpleModel.defaultDelimiters ⟨7, true, 3, 5⟩ _ rfl
  exact ⟨_, ⟨7, true, 3, 5⟩, [.putc 32], .called (c := .putc 97) h rfl, nofun⟩

end WordModel
