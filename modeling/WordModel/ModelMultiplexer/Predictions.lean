import WordModel.ModelMultiplexer.Levels

/-! What a multiplexer of simple models predicts: the next word if a word has just ended, the
next character if not. -/

namespace WordModel

open Checked WordModel.Parser

namespace SimpleModel

def following (log : List Word) : Word :=
  (log.getLast?.bind (fun w => mostFrequent (followedBy log w))).getD []

structure Foretells (m : SimpleModel) (log : List Word) : Prop where
  trained : m.Trained log
  prediction : log.length < 2 ^ 32 → m.prediction = following log

lemma construct_foretells {delimiters : List Word} {found : Found} {m : SimpleModel}
    (h : construct delimiters found = .ok m) : m.Foretells [] := by
  obtain ⟨m', hm', htrained⟩ := construct_trained delimiters found
  obtain rfl := Except.ok.inj (hm'.symm.trans h)
  refine ⟨htrained, fun _ => ?_⟩
  obtain ⟨p, hp, he⟩ := bind_eq_ok.mp h
  rw [← Except.ok.inj he]
  rfl

lemma putc_prediction (m : SimpleModel) (c : UInt8) :
    (m.putc c).1.prediction = m.prediction := by
  rw [SimpleModel.putc]
  split
  · rfl
  · split
    · split
      · rfl
      · rfl
    · rfl

lemma Foretells.putc {m : SimpleModel} {log : List Word} (h : m.Foretells log) (c : UInt8) :
    (m.putc c).1.Foretells log :=
  ⟨h.trained.putc c, fun hlt => (putc_prediction m c).trans (h.prediction hlt)⟩

lemma Foretells.interface {m : SimpleModel} {log : List Word} (h : m.Foretells log) :
    ∃ m', m.interface true = .ok m' ∧ m'.Foretells (log ++ m.committed (.interface true) m') := by
  by_cases hne : m.inputString = []
  · refine ⟨m, interface_quiet (by simp [hne]), ?_⟩
    rw [committed, if_pos hne, List.append_nil]
    exact h
  · obtain ⟨m', he, htrained, -, hmode⟩ := h.trained.commit hne
    refine ⟨m', he, ?_⟩
    rw [committed, if_neg hne]
    refine ⟨htrained, fun hlt => ?_⟩
    have hfollowed := Nat.lt_of_le_of_lt (followedBy_length_le (log ++ [m.inputString]) m.inputString) hlt
    rw [(hmode hfollowed).1, following, List.getLast?_concat]
    rfl

end SimpleModel

namespace ModelMultiplexer

open SimpleModel

section

variable {ε M : Type} (mt : WordModelType ε M)

lemma climb_lt {ms : List M} (h : ms ≠ []) : climb mt ms < ms.length := by
  induction ms with
  | nil => exact absurd rfl h
  | cons m ms ih =>
    cases ms with
    | nil => exact Nat.zero_lt_one
    | cons m' ms =>
      rw [climb]
      split
      · exact Nat.succ_lt_succ (ih (List.cons_ne_nil m' ms))
      · exact Nat.succ_pos _

lemma climb_pos {m m' : M} {ms : List M} :
    0 < climb mt (m :: m' :: ms) ↔ mt.detectedInterface m = true := by
  rw [climb]
  split
  · simp [*]
  · simp [*]

end

def delimits (w : Word) : Bool := defaultDelimiters.any (fun d => w == d)

/-- What comes next most often, as far as the characters say -/
def foreseen (cs : List UInt8) : Word :=
  following (if (characters cs).getLast?.any delimits then words cs else characters cs)

lemma words_eq_nil {cs : List UInt8} (h : characters cs = []) : words cs = [] := by
  induction cs using List.reverseRecOn with
  | nil => rfl
  | append_singleton cs c ih =>
    rw [characters_concat] at h
    obtain ⟨hinit, hlast⟩ := List.append_eq_nil_iff.mp h
    have hplain : isDelimiter c = false := by
      by_contra hc
      rw [Bool.not_eq_false] at hc
      obtain ⟨hzero, height⟩ := isDelimiter_ne hc
      rw [if_neg (by simp [hzero, height])] at hlast
      cases hlast
    rw [(kept_other hplain cs).2, ih hinit]

lemma characters_length_le (cs : List UInt8) : (characters cs).length ≤ cs.length := by
  rw [characters, List.length_map]
  exact List.length_filter_le _ _

lemma words_length_le (cs : List UInt8) : (words cs).length ≤ cs.length := by
  induction cs using List.reverseRecOn with
  | nil => exact Nat.le_refl 0
  | append_singleton cs c ih =>
    rw [List.length_append, List.length_singleton]
    by_cases hc : isDelimiter c = true
    · rw [(kept_delimiter hc cs).2, List.length_append, commit]
      split
      · exact Nat.le_succ_of_le ih
      · exact Nat.succ_le_succ ih
    · rw [Bool.not_eq_true] at hc
      rw [(kept_other hc cs).2]
      exact Nat.le_succ_of_le ih

lemma putc_flag {m : SimpleModel} (hinput : m.inputString = [])
    (hdelimiters : m.delimiters = defaultDelimiters) (c : UInt8) :
    (m.putc c).1.detectedInterface =
      if c = 0 ∨ c = 8 then m.detectedInterface else delimits [c] := by
  rw [SimpleModel.putc]
  by_cases hzero : c = 0
  · rw [if_pos hzero, if_pos (Or.inl hzero)]
  · by_cases height : c = 8
    · rw [if_neg hzero, if_pos height, if_neg (by simp [hinput]), if_pos (Or.inr height)]
    · rw [if_neg hzero, if_neg height, if_neg (by simp [hzero, height]), hinput, detect]
      dsimp only
      rw [hdelimiters]
      rfl

structure Answering (levels : ℕ) (cs : List UInt8)
    (s : ModelMultiplexer (SimpleModel × List Word)) : Prop where
  committed : Committed levels cs s
  foretells : ∀ m ∈ s.models, m.1.Foretells m.2
  flag : ∀ m, s.models[0]? = some m → ∀ w, (characters cs).getLast? = some w →
    m.1.detectedInterface = delimits w

def consulted (m : SimpleModel × List Word) (predictionId : UInt32) : SimpleModel × List Word :=
  ({ m.1 with lastPredictionId := predictionId }, m.2)

lemma Holds.of_consulted {input : Word} {log : List Word} {m : SimpleModel × List Word}
    (h : Holds input log m) (predictionId : UInt32) :
    Holds input log (consulted m predictionId) :=
  ⟨h.tallied, h.delimiters, h.input, h.log⟩

lemma foretells_of_consulted {m : SimpleModel × List Word} (h : m.1.Foretells m.2)
    (predictionId : UInt32) :
    (consulted m predictionId).1.Foretells (consulted m predictionId).2 :=
  ⟨⟨h.trained.tallied, h.trained.nonempty, h.trained.idle⟩, h.prediction⟩

lemma recorded_interface {m : SimpleModel × List Word} (h : m.1.Foretells m.2) :
    ∃ m', recorded.interface m true = .ok m' ∧ m'.1.Foretells m'.2 := by
  obtain ⟨m', he, hm'⟩ := h.interface
  refine ⟨(m', m.2 ++ m.1.committed (.interface true) m'), ?_, hm'⟩
  change (m.1.interface true >>= _) = _
  rw [he]
  rfl

section

variable {levels : ℕ} {cs : List UInt8} {s : ModelMultiplexer (SimpleModel × List Word)}
  (h : Answering levels cs s)

include h

lemma Answering.putc (c : UInt8) :
    ∃ r, ModelMultiplexer.putc recorded s c = .ok r ∧ Answering levels (cs ++ [c]) r.1 := by
  obtain ⟨r, hr, hcommitted⟩ := h.committed.putc c
  obtain ⟨m, ms, hmodels, -, hlowest, -⟩ := h.committed
  have hforetells := h.foretells
  have hflag := h.flag m (by rw [hmodels]; rfl)
  rw [hmodels] at hforetells
  obtain ⟨hm, hms⟩ := List.forall_mem_cons.mp hforetells
  obtain ⟨m', hm', hnew⟩ := recorded_interface (m := (recorded.putc m c).1) (hm.putc c)
  obtain ⟨ms', interface, he, -, hms'⟩ : ∃ ms' interface,
      putcLevels recorded c ms (recorded.putc m c).2 = .ok (ms', interface) ∧
        ms'.length = ms.length ∧ ∀ x ∈ ms', x.1.Foretells x.2 :=
    putcLevels_rule recorded hms (fun _ x hx => recorded_interface hx) (fun _ => True.intro)
      (fun _ x hx => ⟨hx.putc c, fun _ => True.intro⟩)
  have hput : ModelMultiplexer.putc recorded s c = .ok (⟨m' :: ms', interface⟩, interface) := by
    rw [ModelMultiplexer.putc, hmodels]
    dsimp only
    rw [hm', he]
    rfl
  obtain rfl := Except.ok.inj (hr.symm.trans hput)
  refine ⟨_, hput, hcommitted, List.forall_mem_cons.mpr ⟨hnew, hms'⟩, fun x hx w hw => ?_⟩
  obtain rfl : m' = x := Option.some.inj hx
  -- committing does not touch the flag
  obtain ⟨m'', hm'', -, hsame⟩ := (hlowest.1.putc c).1.commit
  obtain rfl := Except.ok.inj (hm'.symm.trans hm'')
  rw [hsame]
  change (m.1.putc c).1.detectedInterface = _
  rw [putc_flag hlowest.1.input hlowest.1.delimiters]
  rw [characters_concat] at hw
  split
  · rename_i hskip
    rw [if_pos hskip, List.append_nil] at hw
    exact hflag w hw
  · rename_i hskip
    rw [if_neg hskip, List.getLast?_concat] at hw
    rw [Option.some.inj hw]

lemma Answering.touch {i : ℕ} {m : SimpleModel × List Word} (hm : s.models[i]? = some m)
    (predictionId : UInt32) :
    Answering levels cs { s with models := s.models.set i (consulted m predictionId) } := by
  obtain ⟨lowest, ms, hmodels, hlen, hlowest, hlevels⟩ := h.committed
  have hforetells (x : SimpleModel × List Word) (hx : x ∈ s.models.set i
      (consulted m predictionId)) : x.1.Foretells x.2 := by
    rcases List.mem_or_eq_of_mem_set hx with hx | rfl
    · exact h.foretells x hx
    · exact foretells_of_consulted (h.foretells m (List.mem_of_getElem? hm)) predictionId
  have hflag := h.flag
  rw [hmodels] at hm hflag hlen
  cases i with
  | zero =>
    obtain rfl : lowest = m := Option.some.inj hm
    refine ⟨⟨consulted lowest predictionId, ms, ?_, ?_, ⟨hlowest.1.of_consulted predictionId, hlowest.2⟩,
      hlevels⟩, hforetells, ?_⟩
    · dsimp only
      rw [hmodels]
      rfl
    · dsimp only
      rw [List.length_set, hmodels]
      exact hlen
    · intro x hx w hw
      dsimp only at hx
      rw [hmodels] at hx
      obtain rfl := Option.some.inj hx
      exact hflag lowest rfl w hw
  | succ i =>
    refine ⟨⟨lowest, ms.set i (consulted m predictionId), ?_, ?_, hlowest, ?_⟩, hforetells, ?_⟩
    · dsimp only
      rw [hmodels]
      rfl
    · dsimp only
      rw [List.length_set, hmodels]
      exact hlen
    · intro x hx
      rcases List.mem_or_eq_of_mem_set hx with hx | rfl
      · exact hlevels x hx
      · have hlevel := hlevels m (List.mem_of_getElem? hm)
        exact ⟨hlevel.1.of_consulted predictionId, hlevel.2⟩
    · intro x hx w hw
      dsimp only at hx
      rw [hmodels] at hx
      exact hflag x hx w hw

lemma Answering.asked (hlevels : 2 ≤ levels) (hlt : cs.length < 2 ^ 32)
    (order : (AList fun _ : Word => Word) → List (Word × Word)) :
    ∃ m, s.models[climb (modelType order) (s.models.map Prod.fst)]? = some m ∧
      m.1.prediction = foreseen cs := by
  obtain ⟨lowest, ms, hmodels, hlen, hlowest, hms⟩ := h.committed
  have hflag := h.flag lowest (by rw [hmodels]; rfl)
  have hforetells := h.foretells
  rw [hmodels] at hlen hforetells ⊢
  obtain ⟨m', ms', rfl⟩ : ∃ m' ms', ms = m' :: ms' := by
    apply List.exists_cons_of_ne_nil
    rintro rfl
    rw [List.length_singleton] at hlen
    omega
  have hclimb : climb (modelType order) ((lowest :: m' :: ms').map Prod.fst) <
      ((lowest :: m' :: ms').map Prod.fst).length := climb_lt _ (List.cons_ne_nil _ _)
  have hpos : 0 < climb (modelType order) (lowest.1 :: m'.1 :: ms'.map Prod.fst) ↔
      lowest.1.detectedInterface = true := climb_pos _
  rw [List.length_map] at hclimb
  rw [List.map_cons, List.map_cons] at hclimb ⊢
  generalize climb (modelType order) (lowest.1 :: m'.1 :: ms'.map Prod.fst) = i at *
  have htold := List.getElem?_eq_getElem hclimb
  refine ⟨_, htold, ?_⟩
  have hprediction := (hforetells _ (List.getElem_mem hclimb)).prediction
  cases i with
  | zero =>
    have hlog : lowest.2 = characters cs := hlowest.1.log
    have hdown : lowest.1.detectedInterface = false := by
      rw [← Bool.not_eq_true, ← hpos]
      exact Nat.lt_irrefl 0
    have hnone : (characters cs).getLast?.any delimits = false := by
      cases hlast : (characters cs).getLast? with
      | none => rfl
      | some w =>
        rw [hdown] at hflag
        exact (hflag w hlast).symm
    change lowest.2.length < 2 ^ 32 → lowest.1.prediction = following lowest.2 at hprediction
    rw [hlog] at hprediction
    rw [foreseen, hnone]
    exact hprediction (Nat.lt_of_le_of_lt (characters_length_le cs) hlt)
  | succ i =>
    have hup := hpos.mp (Nat.succ_pos i)
    rw [List.getElem_cons_succ] at hprediction ⊢
    have hlog := (hms _ (List.getElem_mem (Nat.lt_of_succ_lt_succ hclimb))).1.log
    rw [hlog] at hprediction
    rw [hprediction (Nat.lt_of_le_of_lt (words_length_le cs) hlt), foreseen]
    cases hlast : (characters cs).getLast? with
    | none =>
      have hnil := List.getLast?_eq_none_iff.mp hlast
      rw [hnil, words_eq_nil hnil, ite_self]
    | some w =>
      rw [hup] at hflag
      rw [Option.any_some, ← hflag w hlast, if_pos rfl]

lemma Answering.getPrediction (hlevels : 2 ≤ levels) (hlt : cs.length < 2 ^ 32)
    (order : (AList fun _ : Word => Word) → List (Word × Word)) (predictionId : Option UInt32) :
    ∃ s', ModelMultiplexer.getPrediction (modelType order) (s.view Prod.fst) predictionId =
        .ok (s'.view Prod.fst, foreseen cs) ∧ Answering levels cs s' := by
  obtain ⟨m, hm, hprediction⟩ := h.asked hlevels hlt order
  refine ⟨_, ?_, h.touch hm (predictionId.getD m.1.lastPredictionId)⟩
  rw [ModelMultiplexer.getPrediction]
  dsimp only
  have hget : (s.view Prod.fst).models[climb (modelType order) (s.view Prod.fst).models]? =
      some m.1 := by
    rw [view, List.getElem?_map, hm]
    rfl
  rw [hget]
  change Except.ok (_, m.1.prediction) = .ok (_, foreseen cs)
  rw [Except.ok.injEq, Prod.mk.injEq]
  refine ⟨?_, hprediction⟩
  rw [view, view, List.map_set]
  rfl

end

lemma writeSummary_eq (order : (AList fun _ : Word => Word) → List (Word × Word))
    (s : ModelMultiplexer SimpleModel) :
    ∃ text, ModelMultiplexer.writeSummary (modelType order) s = .ok (s, text) := by
  suffices hmodels : ∀ (ms : List SimpleModel) (out : Decimal.Bytes),
      ∃ text, writeSummaries (modelType order) ms out = .ok (ms, text) by
    obtain ⟨text, htext⟩ := hmodels s.models title
    refine ⟨text, ?_⟩
    rw [ModelMultiplexer.writeSummary, htext]
    rfl
  intro ms
  induction ms with
  | nil => exact fun out => ⟨out, rfl⟩
  | cons m ms ih =>
    intro out
    obtain ⟨text, htext⟩ := ih (out ++ m.writeSummary order)
    refine ⟨text, ?_⟩
    rw [writeSummaries]
    change (writeSummaries (modelType order) ms (out ++ m.writeSummary order) >>= _) = _
    rw [htext]
    rfl

inductive Query where
  | putc (c : UInt8)
  | getPrediction (predictionId : Option UInt32)
  | writeSummary

def consult (order : (AList fun _ : Word => Word) → List (Word × Word)) :
    ModelMultiplexer SimpleModel → List Query →
      Except (Fault (Checked.Fault Container)) (ModelMultiplexer SimpleModel × List Word)
  | s, [] => .ok (s, [])
  | s, .putc c :: qs => do
    let (s, _) ← putc simple s c
    consult order s qs
  | s, .getPrediction predictionId :: qs => do
    let (s, prediction) ← getPrediction (modelType order) s predictionId
    let (s, predictions) ← consult order s qs
    return (s, prediction :: predictions)
  | s, .writeSummary :: qs => do
    let (s, _) ← writeSummary (modelType order) s
    consult order s qs

def foretold : List UInt8 → List Query → List Word
  | _, [] => []
  | cs, .putc c :: qs => foretold (cs ++ [c]) qs
  | cs, .getPrediction _ :: qs => foreseen cs :: foretold cs qs
  | cs, .writeSummary :: qs => foretold cs qs

lemma Answering.consult {levels : ℕ} {cs : List UInt8}
    {s : ModelMultiplexer (SimpleModel × List Word)} (h : Answering levels cs s)
    (hlevels : 2 ≤ levels) (order : (AList fun _ : Word => Word) → List (Word × Word))
    {qs : List Query} (hlt : cs.length + qs.length < 2 ^ 32) :
    ∃ s', ModelMultiplexer.consult order (s.view Prod.fst) qs = .ok (s', foretold cs qs) := by
  induction qs generalizing cs s with
  | nil => exact ⟨_, rfl⟩
  | cons q qs ih =>
    rw [List.length_cons] at hlt
    cases q with
    | putc c =>
      obtain ⟨r, hr, hnext⟩ := h.putc c
      have hput := recorded_watched.multiplexer s c
      rw [hr] at hput
      obtain ⟨s', hs'⟩ := ih hnext (by rw [List.length_append, List.length_singleton]; omega)
      refine ⟨s', ?_⟩
      rw [ModelMultiplexer.consult, hput]
      exact hs'
    | getPrediction predictionId =>
      obtain ⟨t, ht, hnext⟩ := h.getPrediction hlevels (by omega) order predictionId
      obtain ⟨s', hs'⟩ := ih hnext (by omega)
      refine ⟨s', ?_⟩
      rw [ModelMultiplexer.consult, ht]
      change (ModelMultiplexer.consult order (t.view Prod.fst) qs >>= _) = _
      rw [hs']
      rfl
    | writeSummary =>
      obtain ⟨text, htext⟩ := writeSummary_eq order (s.view Prod.fst)
      obtain ⟨s', hs'⟩ := ih h (by omega)
      refine ⟨s', ?_⟩
      rw [ModelMultiplexer.consult, htext]
      exact hs'

lemma construct_answering (founds : List Found) (hlevels : 0 < founds.length) (interface : Bool) :
    ∃ s₀, construct founds interface = .ok s₀ ∧
      Answering founds.length [] (s₀.view (fun m => (m, []))) := by
  obtain ⟨s₀, hs₀, hlen, hholds⟩ := construct_ok founds interface
  have hforetells : ∀ m ∈ s₀.models, m.Foretells [] := by
    obtain ⟨ms, hms, he⟩ := bind_eq_ok.mp hs₀
    obtain rfl := Except.ok.inj he
    clear he hs₀ hlen hholds hlevels
    dsimp only
    induction founds generalizing ms with
    | nil =>
      obtain rfl := Except.ok.inj hms
      simp
    | cons found founds ih =>
      rw [List.mapM_cons] at hms
      obtain ⟨m, hm, hms⟩ := bind_eq_ok.mp hms
      obtain ⟨ms, hrest, he⟩ := bind_eq_ok.mp hms
      obtain rfl := Except.ok.inj he
      exact List.forall_mem_cons.mpr ⟨construct_foretells hm, ih ms hrest⟩
  obtain ⟨m₀, ms₀, hmodels⟩ : ∃ m ms, s₀.models = m :: ms :=
    List.exists_cons_of_length_pos (hlen ▸ hlevels)
  refine ⟨s₀, hs₀, ⟨(m₀, []), ms₀.map (fun m => (m, [])), ?_, ?_, ?_, ?_⟩, ?_, ?_⟩
  · rw [view, hmodels, List.map_cons]
  · rw [view, List.length_map, hlen]
  · exact ⟨hholds m₀ (by simp [hmodels]), fun _ => rfl⟩
  · intro x hx
    obtain ⟨m, hm, rfl⟩ := List.mem_map.mp hx
    exact ⟨hholds m (by simp [hmodels, hm]), fun _ => rfl⟩
  · intro x hx
    obtain ⟨m, hm, rfl⟩ := List.mem_map.mp hx
    exact hforetells m hm
  · intro m hm w hw
    cases hw

theorem predictions_law (founds : List Found) (hlevels : 2 ≤ founds.length) (interface : Bool)
    (order : (AList fun _ : Word => Word) → List (Word × Word)) (qs : List Query)
    (hlt : qs.length < 2 ^ 32) : ∃ s₀ s, construct founds interface = .ok s₀ ∧
      consult order s₀ qs = .ok (s, foretold [] qs) := by
  obtain ⟨s₀, hs₀, hstart⟩ := construct_answering founds (Nat.lt_of_succ_lt hlevels) interface
  have hview : (s₀.view (fun m => (m, ([] : List Word)))).view Prod.fst = s₀ := by
    rw [view, view, List.map_map]
    exact congrArg (ModelMultiplexer.mk · s₀.interface) (List.map_id _)
  obtain ⟨s, hs⟩ := hstart.consult hlevels order (by rwa [List.length_nil, Nat.zero_add])
  rw [hview] at hs
  exact ⟨s₀, s, hs₀, hs⟩

theorem predictions_law_two : ∃ s₀ s,
    construct [⟨7, true, 3, 5⟩, ⟨1, false, 0, 0⟩] true = .ok s₀ ∧
      consult (fun modes => modes.entries.map (fun e => (e.1, e.2))) s₀
        [.putc 97, .putc 32, .putc 98, .putc 32, .putc 97, .getPrediction (some 4), .putc 32,
          .writeSummary, .getPrediction none] = .ok (s, [[32], [98]]) := by
  have hforetold : foretold [] [.putc 97, .putc 32, .putc 98, .putc 32, .putc 97,
      .getPrediction (some 4), .putc 32, .writeSummary, .getPrediction none] = [[32], [98]] := by
    decide +kernel
  obtain ⟨s₀, s, hs₀, hs⟩ := predictions_law [⟨7, true, 3, 5⟩, ⟨1, false, 0, 0⟩] (by decide) true
    (fun modes => modes.entries.map (fun e => (e.1, e.2)))
    [.putc 97, .putc 32, .putc 98, .putc 32, .putc 97, .getPrediction (some 4), .putc 32,
      .writeSummary, .getPrediction none] (by decide)
  exact ⟨s₀, s, hs₀, hs.trans (by rw [hforetold])⟩

end ModelMultiplexer

end WordModel
