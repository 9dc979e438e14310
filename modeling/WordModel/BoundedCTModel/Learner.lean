import WordModel.BoundedCTModel.Minimisers
import WordModel.BoundedCTModel.NGrams
import WordModel.Library.Prefixes

/-! A model that only hears words is a learner that keeps a table of its mistakes: a word
is as likely as the contexts it was missed in are like the present one. -/

namespace WordModel.BoundedCTModel

open Checked ContextTree Follow Least

structure Learner where
  words : List Word
  scores : List ℤ
  table : List (Word × List Word)
  context : List Word
  prediction : ℕ
  mistakes : ℕ

namespace Learner

def initial : Learner where
  words := [[], interfaceToken]
  scores := [1, 0]
  table := []
  context := []
  prediction := 0
  mistakes := 0

def enter (words : List Word) (w : Word) : List Word :=
  if w ∈ words then words else words ++ [w]

/-- How much the contexts the word was missed in share with this one, as far as they reach. -/
def support (reach : ℕ) (table : List (Word × List Word)) (context : List Word) (w : Word) : ℕ :=
  ((table.filter (fun g => g.1 = w)).map (fun g => shared reach g.2 context)).sum

def total (reach : ℕ) (l : Learner) (t : ℕ) : ℤ :=
  l.scores.getD t 0 - support reach l.table l.context (l.words.getD t [])

def Errs (l : Learner) (w : Word) : Prop := l.prediction ≠ (enter l.words w).idxOf w

instance (l : Learner) (w : Word) : Decidable (l.Errs w) := inferInstanceAs (Decidable (_ ≠ _))

def correct (l : Learner) (w : Word) : Learner where
  words := enter l.words w
  scores := if l.context ≠ [] ∧ l.Errs w then l.scores.modify ((enter l.words w).idxOf w) (· - 1)
    else l.scores
  table := if l.context ≠ [] ∧ l.Errs w then l.table ++ [(w, l.context)] else l.table
  context := l.context
  prediction := l.prediction
  mistakes := if l.Errs w then l.mistakes + 1 else l.mistakes

def predict (reach : ℕ) (l : Learner) : Learner :=
  { l with
    prediction := (scan (l.total reach) l.scores.length ((l.mistakes : ℤ), 0)).2
    scores := growRootWeights l.mistakes (l.words.length - l.scores.length) l.scores }

def hear (bound reach : ℕ) (l : Learner) (w : Word) : Learner :=
  predict reach { l.correct w with context := (w :: l.context).take bound }

def learn (bound reach : ℕ) (ws : List Word) : Learner := ws.foldl (hear bound reach) initial

lemma learn_concat (bound reach : ℕ) (ws : List Word) (w : Word) :
    learn bound reach (ws ++ [w]) = (learn bound reach ws).hear bound reach w := by
  rw [learn, List.foldl_append]
  rfl

@[simp] lemma support_reach_zero (table : List (Word × List Word)) (context : List Word)
    (w : Word) : support 0 table context w = 0 := by
  simp [support]

@[simp] lemma support_nil (reach : ℕ) (context : List Word) (w : Word) :
    support reach [] context w = 0 := rfl

lemma support_cons (reach : ℕ) (g : Word × List Word) (table : List (Word × List Word))
    (context : List Word) (w : Word) : support reach (g :: table) context w =
      (if g.1 = w then shared reach g.2 context else 0) + support reach table context w := by
  by_cases hg : g.1 = w
  · simp [support, hg]
  · simp [support, hg]

lemma support_concat (reach : ℕ) (table : List (Word × List Word)) (g : Word × List Word)
    (context : List Word) (w : Word) : support reach (table ++ [g]) context w =
      support reach table context w + if g.1 = w then shared reach g.2 context else 0 := by
  induction table with
  | nil => rw [List.nil_append, support_cons, support_nil, Nat.add_comm]
  | cons g' table ih => rw [List.cons_append, support_cons, support_cons, ih, Nat.add_assoc]

lemma sum_countP_eq_support (reach : ℕ) (table : List (Word × List Word)) (context : List Word)
    (w : Word) : (context.inits.tail.map (fun s =>
      table.countP (fun g => g.1 = w ∧ s.length ≤ reach ∧ s <+: g.2))).sum =
        support reach table context w := by
  induction table using List.reverseRecOn with
  | nil => simp
  | append_singleton table g ih =>
    have hsplit (s : List Word) : (table ++ [g]).countP
        (fun g => g.1 = w ∧ s.length ≤ reach ∧ s <+: g.2) =
          table.countP (fun g => g.1 = w ∧ s.length ≤ reach ∧ s <+: g.2) +
            if g.1 = w ∧ s.length ≤ reach ∧ s <+: g.2 then 1 else 0 := by
      rw [List.countP_append, List.countP_singleton]
      simp
    simp only [hsplit]
    rw [List.sum_map_add, ih, support_concat]
    congr 1
    by_cases hg : g.1 = w
    · rw [if_pos hg, ← countP_inits_tail, ← sum_map_ite_eq_countP]
      simp only [hg, true_and]
    · simp [hg]

end Learner

open Learner

variable (p : Platform)

lemma sum_filterMap_eq_neg {α : Type} (f : α → Option ℕ) (weight : ℕ → ℤ) (count : α → ℕ)
    {xs : List α} (h : ∀ x ∈ xs, ((f x).map weight).getD 0 = -(count x : ℤ)) :
    ((xs.filterMap f).map weight).sum = -((xs.map count).sum : ℤ) := by
  induction xs with
  | nil => rfl
  | cons x xs ih =>
    have hx := h x (by simp)
    have hxs := ih (fun y hy => h y (List.mem_cons_of_mem _ hy))
    rw [List.map_cons, List.sum_cons, Int.natCast_add]
    cases hf : f x with
    | none =>
      rw [hf, Option.map_none, Option.getD_none] at hx
      rw [List.filterMap_cons_none hf, hxs]
      omega
    | some v =>
      rw [hf, Option.map_some, Option.getD_some] at hx
      rw [List.filterMap_cons_some hf, List.map_cons, List.sum_cons, hxs, hx]
      omega

lemma Tabled.walkWeight {m : BoundedCTModel} {table : List (Word × List Word)} (hf : Fitting m)
    (h : Tabled m table) {ws : List Word} (hws : m.Numbers ws m.predictionContext.reverse)
    (hpos : 0 < m.bound.toNat) {w : Word} {t : ℕ} (hw : m.wordMap.lookup w = some t) :
    m.walkWeight m.walked t = -(support (m.bound.toNat - 1) table ws w : ℤ) := by
  have hwalk : m.walked = walk m.nextWord rootNode ws := by
    have hsame : walk m.nextWord rootNode ws =
        walk (nextVertex m.ct.tree m.ct.tokens) rootNode m.predictionContext.reverse :=
      (walk_relabel (ψ := some) hws rootNode).2
    rw [hsame, walked, visited, hf.sound.root_eq]
    rfl
  rw [Members.walkWeight, hwalk, walk_filter_ne h.unambiguous, ← sum_countP_eq_support]
  apply sum_filterMap_eq_neg
  intro s hs
  have hne : s ≠ [] := ne_nil_of_mem_inits_tail hs
  cases hfollow : follow m.nextWord rootNode s with
  | none =>
    have hcount : table.countP (fun g => g.1 = w ∧ s.length ≤ m.bound.toNat - 1 ∧ s <+: g.2) = 0 := by
      rw [List.countP_eq_zero]
      intro g hg hh
      have hh' := of_decide_eq_true hh
      have hsome := (h.reached s hne).mpr ⟨by omega, g, hg, hh'.2.2⟩
      rw [hfollow] at hsome
      exact Bool.false_ne_true hsome
    rw [hcount]
    rfl
  | some v =>
    obtain ⟨hlt, _⟩ := (h.reached s hne).mp (by rw [hfollow]; rfl)
    have hweight := h.weight s v hne hfollow w
    rw [weightOf, hw] at hweight
    have hle : s.length ≤ m.bound.toNat - 1 := by omega
    simp only [hle, true_and]
    exact hweight

structure Learns (s : BoundedCTModel × List Commit) (l : Learner) : Prop where
  words : s.1.words = l.words
  scores : s.1.rootWeights = l.scores
  table : mistakenSteps s.1.bound.toNat s.2 = l.table
  context : contextBefore s.1.bound.toNat s.2 s.2.length = l.context
  prediction : s.1.prediction = l.prediction
  mistakes : s.1.mistakes = l.mistakes

lemma fresh_learns (bound : UInt32) (predictionId : ℕ) :
    Learns (fresh bound predictionId, []) initial := by
  refine ⟨rfl, rfl, rfl, ?_, rfl, rfl⟩
  simp [contextBefore, initial]

lemma addWord_words {m : BoundedCTModel} (h : Fitting m) :
    m.addWord.words = enter m.words m.currentString := by
  rw [enter]
  cases hw : m.wordMap.lookup m.currentString with
  | some n =>
    rw [(addWord_of_some hw).1, if_pos (List.mem_of_getElem? ((h.wordMap _ _).mp hw))]
  | none =>
    have hnot : m.currentString ∉ m.words := by
      intro hmem
      obtain ⟨n, hn⟩ := List.mem_iff_getElem?.mp hmem
      rw [← h.wordMap, hw] at hn
      cases hn
    rw [addWord_eq_of_none hw, if_neg hnot]

lemma currentToken_eq {m : BoundedCTModel} (h : Fitting m) :
    m.addWord.currentToken = (enter m.words m.currentString).idxOf m.currentString := by
  have hfit := addWord_fitting h
  have hlookup := addWord_lookup m
  have hmem := List.mem_of_getElem? ((hfit.wordMap _ _).mp hlookup)
  have hidx := List.getElem?_idxOf hmem
  rw [← hfit.wordMap, hlookup, Option.some.injEq] at hidx
  rw [hidx, addWord_words h]

lemma Learns.errs_iff {m : BoundedCTModel} {log : List Commit} {l : Learner} (h : Fitting m)
    (hl : Learns (m, log) l) : Mistaken m ↔ l.Errs m.currentString := by
  have hprediction : m.addWord.prediction = l.prediction := by
    rw [addWord_same]
    exact hl.prediction
  have hwords : m.words = l.words := hl.words
  rw [mistaken_iff h, hprediction, currentToken_eq h, hwords]
  rfl

lemma Learns.context_eq_nil {m : BoundedCTModel} {log : List Commit} {l : Learner}
    (hl : Learns (m, log) l) (hpos : 0 < m.bound.toNat) : l.context = [] ↔ log = [] := by
  have hcontext : contextBefore m.bound.toNat log log.length = l.context := hl.context
  rw [← hcontext, contextBefore, List.take_length, List.take_eq_nil_iff]
  simp only [List.reverse_eq_nil_iff, List.map_eq_nil_iff, or_iff_right_iff_imp]
  omega

lemma Charged.rootWeights {m m' : Members} {vertices : List ℕ} {added : ℕ}
    (h : Charged m m' (-1) vertices added) (hroot : rootNode ∈ vertices) :
    m'.rootWeights = m.rootWeights.modify m.prediction (· - 1) := by
  apply List.ext_getElem
  · rw [List.length_modify, h.rootLength]
  · intro t ht ht'
    have hlt : t < m.rootWeights.length := h.rootLength ▸ ht
    have hweight := h.weight rootNode t
    simp only [Members.weight, if_true, hroot, true_and, hlt, implies_true, and_true,
      List.getElem?_eq_getElem ht, List.getElem?_eq_getElem hlt, Option.getD_some] at hweight
    rw [hweight, List.getElem_modify]
    by_cases ht' : m.prediction = t
    · rw [if_pos ht'.symm, if_pos ht']
      rfl
    · rw [if_neg (Ne.symm ht'), if_neg ht', Int.add_zero]

lemma Corrected.learns {m m₁ : BoundedCTModel} {log : List Commit} {l : Learner} (h : Fitting m)
    (hl : Learns (m, log) l) (hactive : m.predictionId ∈ m.ct.activeIds ↔ l.context ≠ [])
    (hc : Corrected p m m₁) :
    m₁.words = (l.correct m.currentString).words ∧
      m₁.rootWeights = (l.correct m.currentString).scores ∧
      m₁.mistakes = (l.correct m.currentString).mistakes := by
  have herrs := hl.errs_iff h
  have hwords : m₁.words = (l.correct m.currentString).words := by
    have hold : m.words = l.words := hl.words
    rw [hc.words, addWord_words h, hold]
    rfl
  have hscores : m.rootWeights = l.scores := hl.scores
  have hmistakes : m.mistakes = l.mistakes := hl.mistakes
  refine ⟨hwords, ?_⟩
  cases hc with
  | right hn =>
    rw [Learner.correct, if_neg (fun hh => hn (herrs.mpr hh.2)), if_neg (fun hh => hn (herrs.mpr hh)),
      addWord_same]
    exact ⟨hscores, hmistakes⟩
  | wrong hm hfed =>
    have hroot : (blamed m).rootWeights = l.scores := by
      rw [blamed, addWord_same]
      exact hscores
    have hcount : m₁.mistakes = l.mistakes + 1 := by
      rw [(Corrected.wrong hm hfed).mistakes, if_pos hm, hmistakes]
    have hids : (blamed m).ct.activeIds = m.ct.activeIds := by
      rw [blamed, addWord_same]
    refine ⟨?_, by rw [Learner.correct, if_pos (herrs.mp hm), hcount]⟩
    cases hfed with
    | rejected hn =>
      have hnil : ¬ (l.context ≠ [] ∧ l.Errs m.currentString) := by
        rw [← hactive, ← hids]
        exact fun hh => hn hh.1
      rw [Learner.correct, if_neg hnil, hroot]
    | @settled con path members ha _ hrec hcharged =>
      have hpath : rootNode ∈ path := List.mem_of_head? hrec.rooted
      have hboth : l.context ≠ [] ∧ l.Errs m.currentString := by
        rw [← hactive, ← hids]
        exact ⟨ha, herrs.mp hm⟩
      have htoken : (blamed m).prediction = (enter l.words m.currentString).idxOf m.currentString := by
        have hold : m.words = l.words := hl.words
        rw [← hold]
        exact currentToken_eq h
      rw [Learner.correct, if_pos hboth, ← hroot, ← htoken]
      exact Charged.rootWeights hcharged (List.mem_append_left _ hpath)

lemma Foretold.learns {r m' : BoundedCTModel} {contextId : ℕ} {con : Context (List ℤ)}
    {t : ContextTree ℕ (List ℤ)} {word : ℕ} {data : List ℤ} {reach : ℕ} {l : Learner}
    (h : Fitting r) (hwords : r.words = l.words) (hscores : r.rootWeights = l.scores)
    (hmistakes : r.mistakes = l.mistakes)
    (hwalk : ∀ w n, r.wordMap.lookup w = some n →
      r.walkWeight r.walked n = -(support reach l.table l.context w : ℤ))
    (hf : Foretold r m' contextId con t word data) (hs : Summed r.toMembers r.walked word data) :
    m'.words = (l.predict reach).words ∧ m'.rootWeights = (l.predict reach).scores ∧
      m'.prediction = (l.predict reach).prediction ∧
      m'.mistakes = (l.predict reach).mistakes := by
  obtain ⟨least, hleast, hword⟩ := hs.least
  have htotal (n : ℕ) (hn : n < r.rootWeights.length) :
      r.total r.walked n = l.total reach n := by
    have hlt : n < r.words.length := by
      have := h.known
      rw [h.words_length]
      omega
    have hget : r.wordMap.lookup r.words[n] = some n := by
      rw [h.wordMap, List.getElem?_eq_getElem hlt]
    rw [Members.total, hwalk _ _ hget, Learner.total, ← hscores, ← hwords]
    simp [Members.weight, hlt, Int.sub_eq_add_neg]
  have hpos := h.positive
  obtain ⟨least', hleast', hscan⟩ := scan_eq (d := l.total reach) (n := r.rootWeights.length) hpos
    ((l.mistakes : ℤ), 0)
  obtain rfl := (hleast.congr htotal).unique hleast'
  have hchosen : word = (l.predict reach).prediction := by
    rw [Learner.predict]
    dsimp only
    rw [← hscores, hscan, hword, htotal least hleast.lt, hmistakes]
    split <;> rfl
  have hnumber : r.tokenNumber = l.words.length := by rw [← h.words_length, hwords]
  rw [hf.result]
  refine ⟨hwords, ?_, hchosen, hmistakes⟩
  change growRootWeights r.mistakes (r.tokenNumber - r.rootWeights.length) r.rootWeights = _
  rw [hmistakes, hnumber, hscores]
  rfl

lemma Learns.commit {m m₁ m' : BoundedCTModel} {log : List Commit} {l : Learner} {reach : ℕ}
    (h : Fitting m) (hpos : 0 < m.bound.toNat) (hl : Learns (m, log) l)
    (hactive : m.predictionId ∈ m.ct.activeIds ↔ log ≠ []) (hcor : Corrected p m m₁)
    {contextId : ℕ} {con : Context (List ℤ)} {t : ContextTree ℕ (List ℤ)} {word : ℕ}
    {data : List ℤ} (hfor : Foretold m₁.pushContext m' contextId con t word data)
    (hsum : Summed m₁.toMembers m₁.pushContext.walked word data) {e : Commit}
    (hword : e.word = m.currentString)
    (hmistaken : e.mistaken = decide (m.words[m.prediction]? ≠ some m.currentString))
    (hwalk : ∀ w n, m₁.wordMap.lookup w = some n →
      m₁.pushContext.walkWeight m₁.pushContext.walked n =
        -(support reach (mistakenSteps m.bound.toNat (log ++ [e]))
          (contextBefore m.bound.toNat (log ++ [e]) (log ++ [e]).length) w : ℤ)) :
    Learns (m', log ++ [e]) (l.hear m.bound.toNat reach m.currentString) := by
  have hnil := hl.context_eq_nil hpos
  obtain ⟨hwords, hscores, hmistakes⟩ := hcor.learns p h hl (hactive.trans (not_congr hnil).symm)
  have hcontext₀ : contextBefore m.bound.toNat log log.length = l.context := hl.context
  have htable₀ : mistakenSteps m.bound.toNat log = l.table := hl.table
  have htable : mistakenSteps m.bound.toNat (log ++ [e]) = (l.correct m.currentString).table := by
    have hiff : log ≠ [] ∧ e.mistaken = true ↔ l.context ≠ [] ∧ l.Errs m.currentString := by
      rw [hmistaken, mistaken_eq h, decide_eq_true_iff, hl.errs_iff h, ne_eq, ne_eq, hnil]
    rw [mistakenSteps_concat, hword, hcontext₀, htable₀]
    dsimp only [Learner.correct]
    by_cases hboth : l.context ≠ [] ∧ l.Errs m.currentString
    · rw [if_pos (hiff.mpr hboth), if_pos hboth]
    · rw [if_neg (fun hh => hboth (hiff.mp hh)), if_neg hboth, List.append_nil]
  have hcontext : contextBefore m.bound.toNat (log ++ [e]) (log ++ [e]).length =
      (m.currentString :: l.context).take m.bound.toNat := by
    rw [contextBefore_last, hword, hcontext₀]
  rw [htable, hcontext] at hwalk
  obtain ⟨hwords', hscores', hprediction, hmistakes'⟩ := hfor.learns
    (l := { l.correct m.currentString with
      context := (m.currentString :: l.context).take m.bound.toNat })
    (hcor.pushContext_fitting p h) hwords hscores hmistakes hwalk ⟨hsum.data_eq, hsum.least⟩
  have hbound := hfor.bound_eq p hcor
  refine ⟨hwords', hscores', ?_, ?_, hprediction, hmistakes'⟩
  · rw [hbound]
    exact htable
  · rw [hbound]
    exact hcontext

lemma additionRounds_of_nonpos (index additionSize : ℕ) {depth : ℤ} (h : depth ≤ 0) :
    additionRounds index depth additionSize = 0 := by
  rw [additionRounds]
  split
  · omega
  · rfl

lemma Fed.tree_length {m m' : BoundedCTModel} {isRegret : Bool} {contextId : ℕ} {depth : ℤ}
    (h : depth ≤ 0) (hf : Fed p m isRegret contextId depth m') :
    m'.ct.tree.length = m.ct.tree.length := by
  cases hf with
  | rejected => rfl
  | @settled con path members _ _ hrec _ =>
    have hnew := hrec.newTokens_length depth
    rw [additionRounds_of_nonpos _ _ h] at hnew
    dsimp only
    rw [settled_length p.template hrec, hnew, Nat.add_zero]

variable {p} in
lemma Stepped.tree_cases {m m' : BoundedCTModel} {c : Call} (h : Fitting m)
    (hs : Stepped p m c m') : m'.ct.tree = m.ct.tree ∨
      ∃ m₁ m₂ isRegret contextId, m₁.ct = m.ct ∧ Fitting m₁ ∧
        Fed p m₁ isRegret contextId m.depth m₂ ∧ m'.ct.tree = m₂.ct.tree := by
  cases hs with
  | quiet he =>
    rw [he]
    exact Or.inl rfl
  | regretted hf => exact Or.inr ⟨m, m', _, _, rfl, h, hf, rfl⟩
  | @committed m₁ _ contextId con t word data _ hcor _ hfor =>
    have hold : m.addWord.ct = m.ct := by rw [addWord_same]
    have htree : m'.ct.tree = m₁.ct.tree := hfor.tree_eq
    cases hcor with
    | right => exact Or.inl (htree.trans (by rw [hold]))
    | wrong _ hf => exact Or.inr ⟨blamed m, m₁, _, _, hold, blamed_fitting h, hf, htree⟩

lemma Stepped.tree_length {m m' : BoundedCTModel} {c : Call} (h : Fitting m) (hd : m.depth ≤ 0)
    (hs : Stepped p m c m') : m'.ct.tree.length = m.ct.tree.length := by
  rcases hs.tree_cases h with he | ⟨m₁, m₂, _, _, hct, -, hf, he⟩
  · rw [he]
  · rw [he, hf.tree_length p hd, hct]

lemma walkWeight_of_bare {m : BoundedCTModel} (h : Fitting m) (hbare : m.ct.tree.length = 1)
    (n : ℕ) : m.walkWeight m.walked n = 0 := by
  have hnone : m.walked.filter (· ≠ rootNode) = [] := by
    rw [List.filter_eq_nil_iff]
    intro v hv
    have hlt := h.sound.visited_lt _ v hv
    have hzero : v = rootNode := by
      change v = 0
      omega
    simp [hzero]
  rw [Members.walkWeight, hnone]
  rfl

lemma depth_nonpos {m : BoundedCTModel} (h : 2 ^ 31 ≤ m.bound.toNat) : m.depth ≤ 0 := by
  have hb : m.depth = m.bound.toBitVec.toInt := rfl
  have hn : m.bound.toBitVec.toNat = m.bound.toNat := rfl
  have hlt := m.bound.toNat_lt
  rw [hb, BitVec.toInt_eq_toNat_cond]
  split
  · omega
  · omega

/-- How far the contexts of the table reach: a bound from 2^31 on makes a negative depth. -/
def reach (bound : UInt32) : ℕ := if bound.toNat < 2 ^ 31 then bound.toNat - 1 else 0

abbrev learnt (bound : UInt32) (ws : List Word) : Learner :=
  learn bound.toNat (reach bound) ws

/-- Where the depth is positive and the learner errs, the context fits an `int`. -/
def Brief (bound : UInt32) (ws : List Word) : Prop :=
  bound.toNat < 2 ^ 31 → ∀ us w, us ++ [w] <+: ws → (learnt bound us).Errs w →
    min us.length bound.toNat + 1 < 2 ^ 31

lemma Brief.of_prefix {bound : UInt32} {ws ws' : List Word} (h : Brief bound ws')
    (hp : ws <+: ws') : Brief bound ws :=
  fun hlt us w hus => h hlt us w (hus.trans hp)

lemma Brief.of_length {bound : UInt32} {ws : List Word}
    (h : min ws.length (bound.toNat + 1) < 2 ^ 31) : Brief bound ws := by
  intro _ us w hus _
  have hlength := hus.length_le
  rw [List.length_append, List.length_singleton] at hlength
  omega

def Judged (bound : UInt32) (log : List Commit) : Prop :=
  ∀ (k : ℕ) (e : Commit), log[k]? = some e →
    (e.mistaken = true ↔ (learnt bound ((log.take k).map (·.word))).Errs e.word)

lemma Judged.concat {bound : UInt32} {log : List Commit} {e : Commit} (h : Judged bound log)
    (he : e.mistaken = true ↔ (learnt bound (log.map (·.word))).Errs e.word) :
    Judged bound (log ++ [e]) := by
  intro k e' hget
  rcases Nat.lt_trichotomy k log.length with hlt | rfl | hgt
  · rw [List.getElem?_append_left hlt] at hget
    rw [List.take_append_of_le_length (Nat.le_of_lt hlt)]
    exact h k e' hget
  · rw [List.getElem?_concat_length, Option.some.injEq] at hget
    rw [List.take_left, ← hget]
    exact he
  · have hnone : (log ++ [e])[k]? = none := by
      rw [List.getElem?_eq_none]
      rw [List.length_append, List.length_singleton]
      exact hgt
    rw [hnone] at hget
    cases hget

structure Learning (bound : UInt32) (s : BoundedCTModel × List Commit) : Prop where
  fitting : Fitting s.1 ∧ Complete s.1
  recalled : Recalled s.1.ct s.1.depth s.1.predictionContext.length s.2
  bound_eq : s.1.bound = bound
  latest : s.1.predictionId ∈ s.1.ct.activeIds ↔ s.2 ≠ []
  bare : 2 ^ 31 ≤ bound.toNat → s.1.ct.tree.length = 1
  learns : Brief bound (s.2.map (·.word)) →
    (Learns s (learnt bound (s.2.map (·.word))) ∧ Judged bound s.2) ∧
      (bound.toNat < 2 ^ 31 → Tabled s.1 (mistakenSteps bound.toNat s.2) ∧ Heard s.1 s.2)

lemma Stepped.latest {m m' : BoundedCTModel} {c : Call} {log : List Commit}
    (hs : Stepped p m c m') (hears : c.hears = true)
    (h : m.predictionId ∈ m.ct.activeIds ↔ log ≠ []) :
    m'.predictionId ∈ m'.ct.activeIds ↔ log ++ commits p m c m' ≠ [] := by
  rcases hs.hearing hears with ⟨he, hn⟩ | ⟨m₁, _, _, _, _, _, e, _, hfor, hn, -, -⟩
  · rw [hn, List.append_nil, he]
    exact h
  · obtain ⟨_, active, _, ha, _⟩ := hfor.made.kept
    rw [hn, hfor.result]
    simp [predicted, ContextTree.setData, ha]

lemma Heard.context_length {m : BoundedCTModel} {log : List Commit} (h : Heard m log) :
    m.predictionContext.length = min log.length m.bound.toNat := by
  have hlen := h.context.length_eq
  rw [List.length_reverse, contextBefore, List.take_length, List.length_take,
    List.length_reverse, List.length_map] at hlen
  omega

lemma Learning.walkWeight {bound : UInt32} {m m₁ : BoundedCTModel} {log : List Commit}
    (hpos : 0 < bound.toNat) (h : Learning bound (m, log)) (hcor : Corrected p m m₁)
    (hbare : 2 ^ 31 ≤ bound.toNat → m₁.ct.tree.length = 1) {e : Commit}
    (hword : e.word = m.currentString)
    (hmistaken : e.mistaken = decide (m.words[m.prediction]? ≠ some m.currentString))
    (hbrief : bound.toNat < 2 ^ 31 → (Tabled m (mistakenSteps bound.toNat log) ∧ Heard m log) ∧
      (Mistaken m → m.predictionContext.length + 1 < 2 ^ 31))
    {w : Word} {n : ℕ} (hw : m₁.wordMap.lookup w = some n) :
    m₁.pushContext.walkWeight m₁.pushContext.walked n =
      -(support (reach bound) (mistakenSteps bound.toNat (log ++ [e]))
        (contextBefore bound.toNat (log ++ [e]) (log ++ [e]).length) w : ℤ) := by
  have hb : m.bound = bound := h.bound_eq
  have hfit := hcor.pushContext_fitting p h.fitting.1
  by_cases hsmall : bound.toNat < 2 ^ 31
  · obtain ⟨⟨htabled, hheard⟩, hint⟩ := hbrief hsmall
    rw [← hb] at htabled hsmall hpos
    have hready := hcor.ready p h.fitting.1 h.recalled htabled hheard hpos hsmall hint hword
      hmistaken
    have hbound : m₁.pushContext.bound = bound := by
      change m₁.bound = bound
      rw [hcor.same.1, addWord_same]
      exact hb
    have htotal := hready.tabled.walkWeight hfit hready.context
      (by rw [hbound, ← hb]; exact hpos) (w := w) (t := n) hw
    rw [hbound] at htotal
    rw [htotal, reach, if_pos (by rw [← hb]; exact hsmall)]
  · rw [walkWeight_of_bare hfit (hbare (not_lt.mp hsmall)), reach, if_neg hsmall,
      support_reach_zero]
    rfl

lemma Learning.short {bound : UInt32} {m : BoundedCTModel} {log : List Commit}
    (h : Learning bound (m, log)) (hbrief : Brief bound (log.map (·.word) ++ [m.currentString]))
    (hlt : bound.toNat < 2 ^ 31) (hm : Mistaken m) :
    m.predictionContext.length + 1 < 2 ^ 31 := by
  obtain ⟨⟨hl, _⟩, hsmall⟩ := h.learns (hbrief.of_prefix (List.prefix_append _ _))
  have hlen := hbrief hlt _ _ List.prefix_rfl ((hl.errs_iff h.fitting.1).mp hm)
  have hb : m.bound = bound := h.bound_eq
  rw [List.length_map] at hlen
  rw [(hsmall hlt).2.context_length, hb]
  exact hlen

lemma Learning.typed {bound : UInt32} {m m' : BoundedCTModel} {log : List Commit}
    (h : Learning bound (m, log)) (he : m' = { m with currentString := m'.currentString })
    (hbrief : Brief bound (log.map (·.word))) :
    (Learns (m', log) (learnt bound (log.map (·.word))) ∧ Judged bound log) ∧
      (bound.toNat < 2 ^ 31 → Tabled m' (mistakenSteps bound.toNat log) ∧ Heard m' log) := by
  obtain ⟨⟨hl, hj⟩, hsmall⟩ := h.learns hbrief
  rw [he]
  refine ⟨⟨⟨hl.words, hl.scores, hl.table, hl.context, hl.prediction, hl.mistakes⟩, hj⟩,
    fun hlt => ?_⟩
  obtain ⟨ht, hh⟩ := hsmall hlt
  exact ⟨ht.of_same rfl rfl ht.injective rfl (fun _ _ _ => rfl),
    ⟨hh.context, hh.entered, hh.none, hh.latest⟩⟩

lemma Learning.entered {bound : UInt32} {m m₁ m' : BoundedCTModel} {log : List Commit}
    (hpos : 0 < bound.toNat) (h : Learning bound (m, log)) (hcor : Corrected p m m₁)
    {contextId : ℕ} {con : Context (List ℤ)} {t : ContextTree ℕ (List ℤ)} {word : ℕ}
    {data : List ℤ} (hfor : Foretold m₁.pushContext m' contextId con t word data)
    (hsum : Summed m₁.toMembers m₁.pushContext.walked word data)
    (hbare : 2 ^ 31 ≤ bound.toNat → m'.ct.tree.length = 1) {e : Commit}
    (hword : e.word = m.currentString)
    (hmistaken : e.mistaken = decide (m.words[m.prediction]? ≠ some m.currentString))
    (hbrief : Brief bound (log.map (·.word) ++ [m.currentString])) :
    Learns (m', log ++ [e]) (learnt bound (log.map (·.word) ++ [m.currentString])) ∧
      Judged bound (log ++ [e]) := by
  have hf := h.fitting.1
  have hb : m.bound = bound := h.bound_eq
  obtain ⟨⟨hl, hj⟩, hsmall⟩ := h.learns (hbrief.of_prefix (List.prefix_append _ _))
  rw [hfor.tree_eq] at hbare
  rw [learnt, learn_concat]
  refine ⟨?_, hj.concat ?_⟩
  · rw [← hb] at hpos
    have hnext : Learns (m', log ++ [e]) (Learner.hear m.bound.toNat (reach m.bound) _ _) :=
      hl.commit p hf hpos h.latest hcor hfor hsum hword hmistaken (fun w n hw => by
        rw [hb] at hpos ⊢
        exact h.walkWeight p hpos hcor hbare hword hmistaken
          (fun hlt => ⟨hsmall hlt, h.short hbrief hlt⟩) hw)
    rwa [hb] at hnext
  · rw [hmistaken, mistaken_eq hf, decide_eq_true_iff, hl.errs_iff hf, hword]

lemma Learning.step {bound : UInt32} {m m' : BoundedCTModel} {log : List Commit} {c : Call}
    (hpos : 0 < bound.toNat) (h : Learning bound (m, log)) (hears : c.hears = true)
    (he : BoundedCTModel.step p m c = .ok m') : Learning bound (m', log ++ commits p m c m') := by
  obtain ⟨hf, hc⟩ := h.fitting
  have hb : m.bound = bound := h.bound_eq
  have hs := Stepped.of_ok p hf hc he
  have hfit := hs.fitting p hf hc
  have hrecalled := hs.recalled p hf h.recalled
  have hlatest := hs.latest p hears h.latest
  have hbare : 2 ^ 31 ≤ bound.toNat → m'.ct.tree.length = 1 := by
    intro hlarge
    rw [hs.tree_length p hf (depth_nonpos (hb ▸ hlarge))]
    exact h.bare hlarge
  cases hs with
  | quiet he hid hn =>
    have hid' : m'.predictionId = m.predictionId := hid (by
      rintro id rfl
      cases hears)
    rw [hid'] at he
    rw [hn m', List.append_nil] at hrecalled hlatest ⊢
    exact ⟨hfit, hrecalled, by rw [he]; exact hb, hlatest, hbare, h.typed he⟩
  | regretted => cases hears
  | committed hnonempty =>
    obtain ⟨m₁, contextId, con, t, word, data, hcor, hprepare, hfor, hsum⟩ :=
      commit_of_ok p hf hc hnonempty he
    have hs : Stepped p m (.interface true) m' := .committed hnonempty hcor hprepare hfor
    refine ⟨hfit, hrecalled, (hfor.bound_eq p hcor).trans hb, hlatest, hbare, ?_⟩
    have hcommits : commits p m (.interface true) m' = _ := commits_committed p hnonempty hprepare
    rw [hcommits, List.map_append, List.map_singleton]
    intro hbrief
    refine ⟨h.entered p hpos hcor hfor hsum hbare rfl rfl hbrief, fun hlt => ?_⟩
    obtain ⟨_, hsmall⟩ := h.learns (hbrief.of_prefix (List.prefix_append _ _))
    obtain ⟨ht, hh⟩ := hsmall hlt
    rw [← hb] at ht hlt hpos
    obtain ⟨_, ht', hh'⟩ := hs.tabled p hf h.recalled ht hh hpos hlt
      (h.short hbrief (hb ▸ hlt)) hears
    rw [hcommits] at ht' hh'
    rw [hb] at ht'
    exact ⟨ht', hh'⟩

lemma fresh_learning (bound : UInt32) {predictionId : ℕ} :
    Learning bound (fresh bound predictionId, []) where
  fitting := ⟨fresh_fitting bound predictionId, rfl⟩
  recalled := ⟨⟨_, fresh_leveled [] 20 _ 0⟩, by simp [fresh, ContextTree.fresh]⟩
  bound_eq := rfl
  latest := by simp [fresh, ContextTree.fresh]
  bare _ := rfl
  learns _ := by
    refine ⟨⟨fresh_learns bound predictionId, by simp [Judged]⟩, fun _ => ?_⟩
    exact ⟨fresh_tabled bound predictionId, fresh_heard bound predictionId⟩

variable {p} in
lemma Reached.learning {bound : UInt32} {predictionId : ℕ} {calls : List Call}
    {s : BoundedCTModel × List Commit} (hpos : 0 < bound.toNat)
    (h : Reached p (fun _ c => c.hears = true) bound predictionId calls s) : Learning bound s := by
  refine Runs.Run.traced_invariant h ?_ (fresh_learning bound)
  exact fun m log c m' hl hears he => hl.step p hpos hears he

def edit (w : Word) (c : UInt8) : Word :=
  if c = 0 then w else if c = 8 then w.dropLast else w ++ [c]

def listen : List Word × Word → Call → List Word × Word
  | (ws, w), .putc c => (ws, edit w c)
  | (ws, w), .interface true => if w = [] then (ws, w) else (ws ++ [w], [])
  | s, _ => s

def heard (calls : List Call) : List Word := (calls.foldl listen ([], [])).1

def spell (w : Word) : List Call := w.map .putc ++ [.interface true]

lemma putc_currentString (m : BoundedCTModel) (c : UInt8) :
    (m.putc c).1.currentString = edit m.currentString c := by
  rw [putc, edit]
  by_cases hc : c = 0
  · simp [hc]
  · by_cases hb : c = 8
    · by_cases hpos : 0 < m.currentString.length
      · simp [hb, hpos]
      · have hnil : m.currentString = [] := by
          rw [← List.length_eq_zero_iff]
          omega
        simp [hb, hnil]
    · simp [hc, hb]

lemma step_listens {m m' : BoundedCTModel} (h : Fitting m) (hc : Complete m) {log : List Commit}
    {c : Call} (he : step p m c = .ok m') :
    ((log ++ commits p m c m').map (·.word), m'.currentString) =
      listen (log.map (·.word), m.currentString) c := by
  cases c with
  | putc c =>
    obtain rfl := Except.ok.inj he
    simp [commits, listen, putc_currentString]
  | getPrediction id =>
    obtain ⟨⟨m₁, _, _⟩, hget, hm⟩ := bind_eq_ok.mp he
    obtain ⟨word, _, hw⟩ := bind_eq_ok.mp hget
    obtain rfl := Except.ok.inj hm
    obtain ⟨rfl, _⟩ := Prod.mk.inj (Except.ok.inj hw)
    cases id <;> simp [commits, listen]
  | predictionResult contextId outcome =>
    rw [commits_predictionResult, List.append_nil]
    cases outcome with
    | true =>
      obtain rfl := Except.ok.inj he
      rfl
    | false =>
      have hfed : Fed p m true contextId m.depth m' := Fed.of_ok p h he
      rw [hfed.same.1]
      rfl
  | interface atInterface =>
    cases atInterface with
    | false =>
      obtain rfl : m = m' := by simpa [step, interface] using he
      simp [commits, listen]
    | true =>
      by_cases hpos : 0 < m.currentString.length
      · obtain ⟨m₁, _, _, _, _, _, _, hprepare, hfor, _⟩ := commit_of_ok p h hc hpos he
        have hempty : m'.currentString = [] := by rw [hfor.result]
        have hne : m.currentString ≠ [] := List.ne_nil_of_length_pos hpos
        rw [commits_committed p hpos hprepare, hempty, listen, if_neg hne]
        simp
      · obtain rfl : m = m' := by simpa [step, interface, hpos] using he
        have hnil : m.currentString = [] := by
          rw [← List.length_eq_zero_iff]
          omega
        simp [commits, listen, hnil]

variable {p} in
lemma Reached.heard {guard : BoundedCTModel × List Commit → Call → Prop} {bound : UInt32}
    {predictionId : ℕ} {calls : List Call} {s : BoundedCTModel × List Commit}
    (h : Reached p guard bound predictionId calls s) :
    s.2.map (·.word) = BoundedCTModel.heard calls := by
  have hh := (Runs.Run.history (P := fun calls (s : BoundedCTModel × List Commit) =>
    (Fitting s.1 ∧ Complete s.1) ∧
      (s.2.map (·.word), s.1.currentString) = calls.foldl listen ([], [])) h ?_
    ⟨⟨fresh_fitting bound predictionId, rfl⟩, rfl⟩).2
  · exact congrArg Prod.fst hh
  · rintro calls ⟨m, log⟩ c ⟨m', log'⟩ ⟨⟨hf, hc⟩, hlisten⟩ _ he
    obtain ⟨hstep, hlog⟩ := Runs.traced_eq_ok.mp he
    dsimp only at hstep hlog hlisten
    refine ⟨(Stepped.of_ok p hf hc hstep).fitting p hf hc, ?_⟩
    rw [hlog, List.foldl_append, ← hlisten]
    exact step_listens p hf hc hstep

variable {p} in
lemma Reached.learns {bound : UInt32} {predictionId : ℕ} {calls : List Call}
    {s : BoundedCTModel × List Commit} (hpos : 0 < bound.toNat)
    (h : Reached p (fun _ c => c.hears = true) bound predictionId calls s)
    (hbrief : Brief bound (BoundedCTModel.heard calls)) :
    Learns s (learnt bound (BoundedCTModel.heard calls)) ∧ Judged bound s.2 := by
  have hh := (h.learning hpos).learns
  rw [h.heard] at hh
  exact (hh hbrief).1

lemma foldl_putc (ws : List Word) (w : Word) {cs : Word} (h : ∀ c ∈ cs, c ≠ 0 ∧ c ≠ 8) :
    (cs.map Call.putc).foldl listen (ws, w) = (ws, w ++ cs) := by
  induction cs generalizing w with
  | nil => rw [List.append_nil]; rfl
  | cons c cs ih =>
    obtain ⟨hzero, hback⟩ := h c (by simp)
    rw [List.map_cons, List.foldl_cons, listen, edit, if_neg hzero, if_neg hback,
      ih _ (fun d hd => h d (List.mem_cons_of_mem _ hd)), List.append_assoc]
    rfl

lemma heard_spell {ws : List Word} (h : ∀ w ∈ ws, w ≠ [] ∧ ∀ c ∈ w, c ≠ 0 ∧ c ≠ 8) :
    heard (ws.flatMap spell) = ws := by
  suffices hfrom : ∀ us, (ws.flatMap spell).foldl listen (us, []) = (us ++ ws, []) by
    rw [heard, hfrom, List.nil_append]
  induction ws with
  | nil => simp
  | cons w ws ih =>
    intro us
    obtain ⟨hne, hplain⟩ := h w (by simp)
    rw [List.flatMap_cons, List.foldl_append, spell, List.foldl_append, foldl_putc us [] hplain,
      List.nil_append, List.foldl_cons, List.foldl_nil, listen, if_neg hne,
      ih (fun v hv => h v (List.mem_cons_of_mem _ hv)), List.append_assoc]
    rfl

lemma spell_hears {ws : List Word} : ∀ c ∈ ws.flatMap spell, c.hears = true := by
  intro c hc
  obtain ⟨w, _, hc⟩ := List.mem_flatMap.mp hc
  rw [spell, List.mem_append, List.mem_map, List.mem_singleton] at hc
  rcases hc with ⟨_, _, rfl⟩ | rfl
  · rfl
  · rfl

end WordModel.BoundedCTModel
