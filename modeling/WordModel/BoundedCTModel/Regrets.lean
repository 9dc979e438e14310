import WordModel.BoundedCTModel.Steps
import WordModel.ContextTree.Levels

/-! Negative feedback that comes after later predictions: which vertices it charges, and
which word. -/

namespace WordModel.BoundedCTModel

open Checked ContextTree

variable (p : Platform)

def madeUnder (log : List Commit) (contextId : ℕ) : Option Commit :=
  log.reverse.find? (fun e => e.contextId == contextId)

lemma madeUnder_concat (log : List Commit) (e : Commit) (contextId : ℕ) :
    madeUnder (log ++ [e]) contextId =
      if e.contextId = contextId then some e else madeUnder log contextId := by
  by_cases h : e.contextId = contextId
  · simp [madeUnder, h]
  · simp [madeUnder, h]

/-- The log tells of every active context which vertices its prediction visited, and these
are what a settlement will walk over. -/
structure Recalled (t : ContextTree ℕ (List ℤ)) (depth : ℤ) (most : ℕ) (log : List Commit) :
    Prop where
  leveled : ∃ level, Leveled t depth most level
  made : ∀ contextId ∈ t.activeIds, ∀ con, t.contexts[contextId]? = some con →
    ∃ e, madeUnder log contextId = some e ∧ Recorded t.tree con e.visited

lemma Fed.recalled {m m' : BoundedCTModel} (h : Fitting m) {isRegret : Bool} {contextId : ℕ}
    {depth : ℤ} {most : ℕ} {log : List Commit} (hr : Recalled m.ct depth most log)
    (hf : Fed p m isRegret contextId depth m') : Recalled m'.ct depth most log := by
  cases hf with
  | rejected => exact hr
  | @settled con path members ha hc hrec _ =>
    obtain ⟨level, hl⟩ := hr.leveled
    refine ⟨hl.settled h.sound p.template ha hc hrec le_rfl, ?_⟩
    intro i hi con' hget
    obtain ⟨_, hi, hget⟩ := settled_active_cases p.template h.sound hi hget
    obtain ⟨e, he, hrec'⟩ := hr.made i hi con' hget
    refine ⟨e, he, hrec'.mono ?_⟩
    dsimp only
    rw [settled_length p.template hrec]
    omega

lemma visitedFrom_eq {m : BoundedCTModel} (h : Fitting m) :
    m.visitedFrom = m.ct.visited m.predictionContext := by
  obtain ⟨contextId, con, t, he, _⟩ := h.sound.predict_spec m.predictionContext
  rw [visitedFrom, he]
  exact predictCalls_visits _ _

lemma Foretold.recalled {m m' : BoundedCTModel} (h : Fitting m) {contextId : ℕ}
    {con : Context (List ℤ)} {t : ContextTree ℕ (List ℤ)} {word : ℕ} {data : List ℤ} {depth : ℤ}
    {most : ℕ} {log : List Commit} (hr : Recalled m.ct depth most log)
    (hf : Foretold m m' contextId con t word data) (hle : most ≤ m.predictionContext.length)
    (hlong : most < m.predictionContext.length ∨ depth ≤ m.predictionContext.length)
    {e : Commit} (hid : e.contextId = contextId) (hv : e.visited = m.visitedFrom) :
    Recalled m'.ct depth m.predictionContext.length (log ++ [e]) := by
  obtain ⟨level, hl⟩ := hr.leveled
  have hmatched := hl.matched h.sound hlong
  have hl' := (hl.predicted h.sound hf.made hle le_rfl).setData contextId data
  have hrec : Recorded m.ct.tree con e.visited := by
    rw [hv, visitedFrom_eq h, ← settlePath_of_empty hmatched]
    exact hf.made.recorded h.sound
  have htree : t.tree = m.ct.tree := by rw [hf.made.same]
  rw [hf.result]
  refine ⟨⟨level, hl'⟩, ?_⟩
  intro i hi con' hget
  dsimp only at hi hget ⊢
  change i ∈ t.activeIds at hi
  rw [setData_getElem?, Option.map_eq_some_iff] at hget
  obtain ⟨con₀, hget, rfl⟩ := hget
  rw [madeUnder_concat, hid]
  change ∃ e' : Commit, _ ∧ Recorded t.tree _ e'.visited
  rw [htree]
  rcases hf.made.active_cases h.sound hi hget with ⟨rfl, rfl⟩ | ⟨hne, hi, hget⟩
  · refine ⟨e, if_pos rfl, ?_⟩
    rw [if_pos rfl]
    exact hrec.of_data data
  · obtain ⟨e', he', hrec'⟩ := hr.made i hi con₀ hget
    refine ⟨e', by rw [if_neg (Ne.symm hne), he'], ?_⟩
    rw [if_neg (Ne.symm hne)]
    exact hrec'

lemma depth_le (m : BoundedCTModel) : m.depth ≤ m.bound.toNat := by
  have hb : m.depth = m.bound.toBitVec.toInt := rfl
  rw [hb, BitVec.toInt_eq_toNat_cond]
  have : m.bound.toBitVec.toNat = m.bound.toNat := rfl
  split <;> omega

lemma pushContext_length (m : BoundedCTModel) : m.pushContext.predictionContext.length =
    min (m.predictionContext.length + 1) m.bound.toNat := by
  change (popWhileOver m.bound.toNat (m.predictionContext ++ [m.currentToken])).length = _
  rw [popWhileOver_eq, List.length_drop, List.length_append, List.length_singleton]
  omega

lemma Corrected.recalled {m m' : BoundedCTModel} (h : Fitting m) (hc : Corrected p m m')
    {most : ℕ} {log : List Commit} (hr : Recalled m.ct m.depth most log) :
    Recalled m'.ct m.depth most log := by
  cases hc with
  | right =>
    rw [addWord_same]
    exact hr
  | wrong _ hf =>
    have hct : (blamed m).ct = m.ct := by rw [blamed, addWord_same]
    exact hf.recalled p (blamed_fitting h) (hct ▸ hr)

lemma Stepped.recalled {m m' : BoundedCTModel} {c : Call} (h : Fitting m)
    (hs : Stepped p m c m') {log : List Commit}
    (hr : Recalled m.ct m.depth m.predictionContext.length log) :
    Recalled m'.ct m'.depth m'.predictionContext.length (log ++ commits p m c m') := by
  cases hs with
  | quiet he _ hn =>
    rw [hn m', List.append_nil, he]
    exact hr
  | regretted hf =>
    have hs := hf.same.1
    have hdepth : m'.depth = m.depth := by
      rw [hs]
      rfl
    have hcontext : m'.predictionContext = m.predictionContext := by rw [hs]
    rw [commits_predictionResult, List.append_nil, hdepth, hcontext]
    exact hf.recalled p h hr
  | @committed m₁ _ contextId con t word data hpos hc hp hf =>
    obtain ⟨hsame, _, _⟩ := hc.same
    have haddWord := addWord_same m
    have hbound : m₁.bound = m.bound := by rw [hsame, haddWord]
    have hcontext : m₁.predictionContext = m.predictionContext := by rw [hsame, haddWord]
    have hlen := pushContext_length m₁
    rw [hbound, hcontext] at hlen
    have hcontext' : m'.predictionContext = m₁.pushContext.predictionContext := by
      rw [hf.result, predicted]
    have hdepth : m'.depth = m.depth := by
      have hb : m'.bound = m₁.bound := by
        rw [hf.result]
        rfl
      rw [depth, hb, hbound]
      rfl
    have hle := h.context_length
    have hd := depth_le m
    rw [commits_committed p hpos hp, hcontext', hdepth]
    refine hf.recalled (hc.pushContext_fitting p h) (hc.recalled p h hr) (by omega) (by omega) ?_ rfl
    rw [hf.result]
    rfl

variable {p} in
lemma Reached.recalled {guard : BoundedCTModel × List Commit → Call → Prop} {bound : UInt32}
    {predictionId : ℕ} {calls : List Call} {s : BoundedCTModel × List Commit}
    (h : Reached p guard bound predictionId calls s) :
    Recalled s.1.ct s.1.depth s.1.predictionContext.length s.2 := by
  have hfresh : Recalled (fresh bound predictionId).ct (fresh bound predictionId).depth 0 [] :=
    ⟨⟨_, fresh_leveled [] 20 _ 0⟩, by simp [fresh, ContextTree.fresh]⟩
  refine h.invariant
    (P := fun s => Recalled s.1.ct s.1.depth s.1.predictionContext.length s.2) ?_ hfresh
  exact fun m log c m' hf _ hr _ _ hs => hs.recalled p hf hr

def ChargesOnly (m m' : BoundedCTModel) (amount : ℤ) (word : ℕ) (vertices : List ℕ) : Prop :=
  ∀ v w, m'.weight v w = m.weight v w + if v ∈ vertices ∧ w = word then amount else 0

theorem regret_law (bound : UInt32) (predictionId : ℕ) (calls : List Call)
    (s : BoundedCTModel × List Commit)
    (h : Reached p (fun _ _ => True) bound predictionId calls s) (contextId : ℕ)
    (ha : contextId ∈ s.1.ct.activeIds) :
    ∃ e m', madeUnder s.2 contextId = some e ∧
      step p s.1 (.predictionResult contextId false) = .ok m' ∧
      (ChargesOnly s.1 m' 1 e.prediction (e.visited ++
          List.range' s.1.ct.tree.length (m'.ct.tree.length - s.1.ct.tree.length)) ↔
        s.1.prediction = e.prediction) := by
  obtain ⟨hf, hc⟩ := h.fitting
  have hlt := hf.sound.pooled.active_lt ha
  have hM := hf.maxContexts
  have hlen := hf.sound.contexts_length
  have hprediction := hf.prediction_lt
  have hget := List.getElem?_eq_getElem (l := s.1.ct.contexts) (i := contextId) (by omega)
  obtain ⟨e, he, hrec⟩ := h.recalled.made contextId ha _ hget
  obtain ⟨m', hstep⟩ : ∃ m', step p s.1 (.predictionResult contextId false) = .ok m' := by
    rcases step_cases p hf hc (.predictionResult contextId false) with ⟨_, m', hs, _⟩ | ⟨hs, _⟩
    · exact ⟨m', hs⟩
    · exact (hs (by omega : contextId ≠ 20)).elim
  refine ⟨e, m', he, hstep, ?_⟩
  have hfed : Fed p s.1 true contextId s.1.depth m' := Fed.of_ok p hf hstep
  cases hfed with
  | rejected hn => exact (hn ha).elim
  | @settled con path members _ hc' hr hcharged =>
    rw [hget, Option.some.injEq] at hc'
    subst hc'
    obtain rfl := hrec.unique hr
    have hcount : (settled p.template s.1.ct contextId s.1.ct.contexts[contextId] e.visited
        s.1.depth).tree.length - s.1.ct.tree.length =
        (newTokens s.1.ct.contexts[contextId] e.visited.length s.1.depth).length := by
      rw [settled_length p.template hr]
      omega
    dsimp only
    rw [hcount]
    have hweight := hcharged.weight
    constructor
    · intro hcharges
      by_contra hne
      have hroot : rootNode ∈ e.visited := List.mem_of_head? hr.rooted
      have h₁ := hcharges rootNode e.prediction
      have h₂ := hweight rootNode e.prediction
      simp only [List.mem_append, hroot, true_or, true_and, feedback, ↓reduceIte] at h₁ h₂
      rw [if_neg (fun hh => hne hh.1.symm)] at h₂
      change members.weight rootNode e.prediction = _ at h₁
      rw [h₁] at h₂
      omega
    · intro heq v w
      refine (hweight v w).trans ?_
      have hknown (hw : w = e.prediction) : w < s.1.rootWeights.length := by
        rw [hw, ← heq, hc]
        exact hprediction
      rw [heq]
      congr 1
      by_cases hw : w = e.prediction
      · have hlt := hknown hw
        simp [hw, hw ▸ hlt, feedback]
      · simp [hw]

theorem regret_law_repeated : ∃ s e m',
    Reached ⟨fun _ _ _ => 0, .dropped⟩ (fun _ _ => True) 5 7 [.putc 97, .interface true,
      .putc 97, .interface true, .putc 97, .interface true] s ∧ madeUnder s.2 1 = some e ∧
    ChargesOnly s.1 m' 1 e.prediction (e.visited ++
      List.range' s.1.ct.tree.length (m'.ct.tree.length - s.1.ct.tree.length)) := by
  have h : Reached ⟨fun _ _ _ => 0, .dropped⟩ (fun _ _ => True) 5 7 [.putc 97, .interface true,
      .putc 97, .interface true, .putc 97, .interface true] _ :=
    .cons trivial rfl (.cons trivial rfl (.cons trivial rfl (.cons trivial rfl (.cons trivial rfl
      (.cons trivial rfl .nil)))))
  obtain ⟨e, m', he, _, hiff⟩ := regret_law _ 5 7 _ _ h 1 (by decide)
  obtain rfl := Option.some.inj he
  exact ⟨_, _, m', h, he, hiff.mpr rfl⟩

theorem regret_law_fails : ¬ ∀ (bound : UInt32) (predictionId : ℕ) (calls : List Call)
    (s : BoundedCTModel × List Commit) (contextId : ℕ) (e : Commit) (m' : BoundedCTModel),
    Reached ⟨fun _ _ _ => 0, .dropped⟩ (fun _ _ => True) bound predictionId calls s →
    contextId ∈ s.1.ct.activeIds → madeUnder s.2 contextId = some e →
    step ⟨fun _ _ _ => 0, .dropped⟩ s.1 (.predictionResult contextId false) = .ok m' →
    ChargesOnly s.1 m' 1 e.prediction (e.visited ++
      List.range' s.1.ct.tree.length (m'.ct.tree.length - s.1.ct.tree.length)) := by
  intro h
  have hrun : Reached ⟨fun _ _ _ => 0, .dropped⟩ (fun _ _ => True) 5 7 [.putc 97, .interface true,
      .putc 98, .interface true, .putc 97, .interface true, .putc 98, .interface true,
      .putc 97, .interface true] _ :=
    .cons trivial rfl (.cons trivial rfl (.cons trivial rfl (.cons trivial rfl (.cons trivial rfl
      (.cons trivial rfl (.cons trivial rfl (.cons trivial rfl (.cons trivial rfl
      (.cons trivial rfl .nil)))))))))
  have hcharges := h 5 7 _ _ 3 _ _ hrun (by decide) rfl rfl rootNode 2
  exact absurd hcharges (by decide)

end WordModel.BoundedCTModel
