import WordModel.BoundedCTModel.Labels
import WordModel.ContextTree.Drawings
import WordModel.Models.Moves

/-! Summaries that are asked for in between. What they change of the model is not seen by any
later call. -/

namespace WordModel.BoundedCTModel

open Checked ContextTree Answers

variable (p : Platform)

def pruned (m : BoundedCTModel) : BoundedCTModel := { m with ct := m.ct.pruned }

lemma pruned_mk {m : BoundedCTModel} {t : ContextTree ℕ (List ℤ)} (h : m.ct.pruned = t.pruned) :
    m.pruned = pruned { m with ct := t } := by
  rw [pruned, pruned, h]

lemma pruned_cases {m m' : BoundedCTModel} (h : m.pruned = m'.pruned) :
    ∃ t, m' = { m with ct := t } ∧ m.ct.pruned = t.pruned := by
  refine ⟨m'.ct, ?_, congrArg ct h⟩
  cases m
  cases m'
  simp only [pruned, BoundedCTModel.mk.injEq] at h
  obtain ⟨rfl, -⟩ := h
  rfl

section

variable {m m' : BoundedCTModel} (h : m.pruned = m'.pruned)

include h

lemma serveTree_pruned (r : Request ℕ) : Agree pruned (serveTree p m r) (serveTree p m' r) := by
  obtain ⟨t, rfl, ht⟩ := pruned_cases h
  refine (serve_pruned ht p.template (visitor p.overrun) m.toMembers r).bind ?_
  rintro ⟨ct, members⟩ ⟨ct', members'⟩ hsame
  obtain ⟨hct, rfl⟩ := Prod.mk.inj hsame
  exact agree_ok (pruned_mk hct)

lemma addWord_pruned : m.addWord.pruned = m'.addWord.pruned := by
  obtain ⟨t, rfl, ht⟩ := pruned_cases h
  simp only [addWord]
  cases m.wordMap.lookup m.currentString with
  | none => exact pruned_mk ht
  | some n => exact h

lemma correct_pruned : Agree pruned (correct p m) (correct p m') := by
  obtain ⟨t, rfl, ht⟩ := pruned_cases h
  rw [correct, correct]
  have hsame : currentToken { m with ct := t } = m.currentToken := rfl
  rw [hsame]
  by_cases hne : m.prediction ≠ m.currentToken
  · rw [if_pos hne, if_pos hne]
    exact serveTree_pruned p (pruned_mk
      (m := { m with mistakes := m.mistakes + 1, prediction := m.currentToken }) ht) _
  · rw [if_neg hne, if_neg hne]
    exact agree_ok h

lemma predictNext_pruned : Agree pruned (predictNext p m) (predictNext p m') := by
  obtain ⟨t, rfl, ht⟩ := pruned_cases h
  refine (predict_pruned ht m.predictionContext).bind ?_
  rintro ⟨contextId, ct, calls⟩ ⟨contextId', ct', calls'⟩ hsame
  obtain ⟨rfl, hrest⟩ := Prod.mk.inj hsame
  obtain ⟨hct, rfl⟩ := Prod.mk.inj hrest
  refine (deliver_pruned hct (visitor p.overrun) contextId _ calls).bind ?_
  rintro ⟨ct, members⟩ ⟨ct', members'⟩ hsame
  obtain ⟨hct, rfl⟩ := Prod.mk.inj hsame
  exact agree_ok (pruned_mk hct)

lemma interface_pruned (atInterface : Bool) :
    Agree pruned (interface p m atInterface) (interface p m' atInterface) := by
  have hcommit : Agree pruned (doPredict p m) (doPredict p m') := by
    refine ((correct_pruned p (addWord_pruned h)).bind (l := fun m => .ok m.pushContext)
      fun m m' h => ?_).bind fun m m' h => predictNext_pruned p h
    obtain ⟨t, rfl, ht⟩ := pruned_cases h
    exact agree_ok (pruned_mk (m := m.pushContext) ht)
  obtain ⟨t, rfl, ht⟩ := pruned_cases h
  rw [interface, interface]
  by_cases hc : atInterface = true ∧ 0 < m.currentString.length
  · rw [if_pos hc, if_pos hc]
    exact hcommit
  · rw [if_neg hc, if_neg hc]
    exact agree_ok h

lemma putc_pruned (c : UInt8) :
    (m.putc c).1.pruned = (m'.putc c).1.pruned ∧ (m.putc c).2 = (m'.putc c).2 := by
  obtain ⟨t, rfl, ht⟩ := pruned_cases h
  simp only [putc]
  split
  · split
    · split
      · exact ⟨pruned_mk ht, rfl⟩
      · exact ⟨h, rfl⟩
    · exact ⟨pruned_mk ht, rfl⟩
  · exact ⟨h, rfl⟩

lemma getPrediction_pruned (predictionId : Option ℕ) :
    Agree (Prod.map pruned id) (m.getPrediction predictionId) (m'.getPrediction predictionId) := by
  obtain ⟨t, rfl, ht⟩ := pruned_cases h
  cases predictionId with
  | none =>
    refine (Agree.refl id (fetch Container.words m.words m.prediction)).bind ?_
    rintro word _ rfl
    exact agree_ok (Prod.ext h rfl)
  | some contextId =>
    refine (Agree.refl id (fetch Container.words m.words m.prediction)).bind ?_
    rintro word _ rfl
    exact agree_ok (Prod.ext (pruned_mk (m := { m with predictionId := contextId }) ht) rfl)

lemma writeSummary_pruned :
    Agree (Prod.map pruned Drawing.labels) m.writeSummary m'.writeSummary := by
  obtain ⟨t, rfl, ht⟩ := pruned_cases h
  refine (writeGraph_pruned ht (m.words.map cStr)).bind ?_
  rintro ⟨ct, drawing⟩ ⟨ct', drawing'⟩ hsame
  obtain ⟨hct, hlabels⟩ := Prod.mk.inj hsame
  exact agree_ok (Prod.ext (pruned_mk hct) hlabels)

lemma act_pruned (c : ModelCall) : Agree (Prod.map pruned id) (m.act p c) (m'.act p c) := by
  cases c with
  | putc c =>
    obtain ⟨hm, hflag⟩ := putc_pruned h c
    exact agree_ok (Prod.ext hm (congrArg ModelAnswer.flag hflag))
  | interface atInterface =>
    exact (interface_pruned p h atInterface).bind fun m m' h => agree_ok (Prod.ext h rfl)
  | getPrediction predictionId =>
    refine (getPrediction_pruned h _).bind ?_
    rintro ⟨m, given, word⟩ ⟨m', given', word'⟩ hsame
    obtain ⟨h, hrest⟩ := Prod.mk.inj hsame
    obtain ⟨-, rfl⟩ := Prod.mk.inj hrest
    exact agree_ok (Prod.ext h rfl)
  | detectedInterface =>
    obtain ⟨t, rfl, ht⟩ := pruned_cases h
    exact agree_ok (Prod.ext h rfl)
  | trainingMistakes =>
    obtain ⟨t, rfl, ht⟩ := pruned_cases h
    exact agree_ok (Prod.ext h rfl)
  | predictionResult predictionId outcome =>
    refine Agree.bind (f := pruned) ?_ fun m m' h => agree_ok (Prod.ext h rfl)
    obtain ⟨t, rfl, ht⟩ := pruned_cases h
    rw [predictionResult, predictionResult]
    split
    · exact serveTree_pruned p h _
    · exact agree_ok h

end

lemma writeSummary_keeps {m m' : BoundedCTModel} {drawing : Drawing Word}
    (h : m.writeSummary = .ok (m', drawing)) : m'.pruned = m.pruned := by
  obtain ⟨⟨ct, drawing'⟩, hwrite, hr⟩ := bind_eq_ok.mp h
  obtain ⟨rfl, -⟩ := Prod.mk.inj (Except.ok.inj hr)
  exact (pruned_mk (writeGraph_keeps hwrite).symm).symm

inductive Watch where
  | call (c : ModelCall)
  | writeSummary

inductive Sight where
  | answer (a : ModelAnswer)
  | vertices (labels : List Word)
  deriving DecidableEq

def watch (m : BoundedCTModel) : Watch → Exec Container (BoundedCTModel × Sight)
  | .call c => do
    let (m, a) ← m.act p c
    return (m, .answer a)
  | .writeSummary => do
    let (m, drawing) ← m.writeSummary
    return (m, .vertices drawing.labels)

def watchCopy (m : BoundedCTModel) : Watch → Exec Container (BoundedCTModel × Sight)
  | .call c => do
    let (m, a) ← m.act p c
    return (m, .answer a)
  | .writeSummary => do
    let (_, drawing) ← m.writeSummary
    return (m, .vertices drawing.labels)

def calls (ws : List Watch) : List ModelCall :=
  ws.filterMap (fun w => match w with | .call c => some c | .writeSummary => none)

def replies (ss : List Sight) : List ModelAnswer :=
  ss.filterMap (fun s => match s with | .answer a => some a | .vertices _ => none)

lemma watch_inStep : InStep (watch p) (watchCopy p) (fun m m' => m.pruned = m'.pruned) := by
  apply Agree.inStep
  intro m m' w h
  cases w with
  | call c =>
    refine (act_pruned p h c).bind ?_
    rintro ⟨m, a⟩ ⟨m', a'⟩ hsame
    obtain ⟨h, rfl⟩ := Prod.mk.inj hsame
    exact agree_ok (Prod.ext h rfl)
  | writeSummary =>
    rcases (writeSummary_pruned h).cases with ⟨⟨m₁, d⟩, ⟨m₂, d'⟩, hm, hm', hsame⟩ | ⟨e, hm, hm'⟩
    · obtain ⟨-, hlabels⟩ := Prod.mk.inj hsame
      rw [watch, watchCopy, hm, hm']
      exact agree_ok (Prod.ext ((writeSummary_keeps hm).trans h) (congrArg Sight.vertices hlabels))
    · rw [watch, watchCopy, hm, hm']
      rfl

lemma answers_watchCopy {m : BoundedCTModel} {ws : List Watch} {ss : List Sight}
    (h : answers (watchCopy p) m ws = .ok ss) : answers (act p) m (calls ws) = .ok (replies ss) := by
  induction ws generalizing m ss with
  | nil =>
    obtain rfl := Except.ok.inj h
    rfl
  | cons w ws ih =>
    obtain ⟨⟨m', s⟩, hstep, h⟩ := bind_eq_ok.mp h
    obtain ⟨ss, hrest, h⟩ := bind_eq_ok.mp h
    obtain rfl := Except.ok.inj h
    cases w with
    | call c =>
      obtain ⟨⟨m₁, a⟩, hact, hr⟩ := bind_eq_ok.mp hstep
      obtain ⟨rfl, rfl⟩ := Prod.mk.inj (Except.ok.inj hr)
      change (act p m c >>= fun r => answers (act p) r.1 (calls ws) >>= fun os => _) = _
      rw [hact, ok_bind, ih hrest]
      rfl
    | writeSummary =>
      obtain ⟨⟨m₁, drawing⟩, -, hr⟩ := bind_eq_ok.mp hstep
      obtain ⟨rfl, rfl⟩ := Prod.mk.inj (Except.ok.inj hr)
      have hcalls := ih hrest
      exact hcalls

theorem drawings_law (m : BoundedCTModel) (ws : List Watch) :
    answers (watch p) m ws = answers (watchCopy p) m ws ∧
      ∀ ss, answers (watch p) m ws = .ok ss → answers (act p) m (calls ws) = .ok (replies ss) := by
  have hsame := (watch_inStep p).answers_eq (s := m) (t := m) rfl ws
  refine ⟨hsame, fun ss h => answers_watchCopy p ?_⟩
  rwa [← hsame]

theorem drawings_law_two :
    let ws := [.call (.putc 97), .call (.interface true), .writeSummary, .call (.putc 98),
      .call (.interface true), .writeSummary, .call .trainingMistakes]
    ∃ ss, answers (watch ⟨fun _ _ _ => 0, .dropped⟩) (fresh 5 7) ws = .ok ss ∧
      answers (act ⟨fun _ _ _ => 0, .dropped⟩) (fresh 5 7) (calls ws) = .ok (replies ss) := by
  intro ws
  obtain ⟨ss, hss⟩ : ∃ ss, answers (watch ⟨fun _ _ _ => 0, .dropped⟩) (fresh 5 7) ws = .ok ss :=
    ⟨_, rfl⟩
  exact ⟨ss, hss, (drawings_law _ (fresh 5 7) ws).2 ss hss⟩

end WordModel.BoundedCTModel
