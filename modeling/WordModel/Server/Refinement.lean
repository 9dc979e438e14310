import WordModel.Server.Conversation

/-! Word models whose operations may fail, and models that answer in their place. -/

namespace WordModel.ModelServer

open Decimal Packet

variable {ε W V : Type}

def certain {α : Type} {P : α → Prop} (x : Except ε α) (h : ∃ a, x = .ok a ∧ P a) : { a // P a } :=
  match x, h with
  | .ok a, h => ⟨a, by
    obtain ⟨b, hb, hp⟩ := h
    exact Except.ok.inj hb ▸ hp⟩
  | .error _, h => False.elim (by
    obtain ⟨b, hb, -⟩ := h
    cases hb)

lemma certain_eq {α : Type} {P : α → Prop} {x : Except ε α} (h : ∃ a, x = .ok a ∧ P a) :
    x = .ok (certain x h).1 := by
  obtain ⟨a, rfl, hp⟩ := h
  rfl

structure Fallible (ε W : Type) where
  putc : W → UInt8 → Except ε W
  getPrediction : W → Except ε (W × Bytes)
  writeSummary : W → Except ε (W × Bytes)
  trainingMistakes : W → ℤ

/-- The second model answers as the first one does, and takes no notice of summaries. -/
structure Refines (wm : Served W) (wm' : Served V) (R : W → V → Prop) : Prop where
  putc : ∀ w v c, R w v → R (wm.putc w c) (wm'.putc v c)
  getPrediction : ∀ w v, R w v → R (wm.getPrediction w).1 (wm'.getPrediction v).1 ∧
    (wm.getPrediction w).2 = (wm'.getPrediction v).2
  writeSummary : ∀ w v, R w v → R (wm.writeSummary w).1 v
  trainingMistakes : ∀ w v, R w v → wm.trainingMistakes w = wm'.trainingMistakes v

def unsummarised (ps : List Processed) : List Processed :=
  ps.filter (fun p => p.1 ≠ PacketType.summary.code)

def spoken (replies : List (PacketType × Bytes)) : List (PacketType × Bytes) :=
  replies.filter (fun r => r.1 ≠ .summary)

namespace Refines

variable {wm : Served W} {wm' : Served V} {R : W → V → Prop} (h : Refines wm wm' R)

include h

lemma foldl_putc {w : W} {v : V} (hwv : R w v) (cs : Bytes) :
    R (cs.foldl wm.putc w) (cs.foldl wm'.putc v) := by
  induction cs generalizing w v with
  | nil => exact hwv
  | cons c cs ih => exact ih (h.putc w v c hwv)

lemma readCorpus {w : W} {v : V} (hwv : R w v) (length : ℕ) (corpus : Bytes) :
    R (Writer.readCorpus wm length corpus w) (Writer.readCorpus wm' length corpus v) := by
  induction length generalizing w v corpus with
  | zero => exact hwv
  | succ length ih =>
    cases corpus with
    | nil => exact h.putc w v 255 hwv
    | cons c corpus => exact ih (h.putc w v c hwv) corpus

lemma trained {w : W} {v : V} (hwv : R w v) (corpus : Option Bytes) :
    R (NodeJs.trained wm corpus w) (NodeJs.trained wm' corpus v) := by
  cases corpus with
  | none => exact hwv
  | some corpus => exact h.readCorpus hwv 1500000 corpus

lemma answer {w : W} {v : V} (hwv : R w v) (corpus : Option Bytes) {p : Processed}
    (hp : p.1 ≠ PacketType.summary.code) :
    R (answer wm corpus w p).1 (answer wm' corpus v p).1 ∧
      spoken (ModelServer.answer wm corpus w p).2 = (ModelServer.answer wm' corpus v p).2 := by
  rw [ModelServer.answer, ModelServer.answer]
  by_cases hpredict : p.1 = PacketType.predict.code
  · obtain ⟨hnext, htext⟩ := h.getPrediction _ _ (h.foldl_putc hwv p.2)
    rw [if_pos hpredict, if_pos hpredict]
    refine ⟨hnext, ?_⟩
    dsimp only
    rw [htext]
    split
    · rfl
    · rfl
  · rw [if_neg hpredict, if_neg hpredict]
    by_cases htrain : p.1 = PacketType.train.code
    · have hnext := h.trained hwv corpus
      rw [if_pos htrain, if_pos htrain]
      refine ⟨hnext, ?_⟩
      dsimp only
      rw [h.trainingMistakes _ _ hnext]
      rfl
    · rw [if_neg htrain, if_neg htrain, if_neg hp, if_neg hp]
      exact ⟨hwv, rfl⟩

lemma answer_summary {w : W} {v : V} (hwv : R w v) (corpus : Option Bytes) {p : Processed}
    (hp : p.1 = PacketType.summary.code) : R (ModelServer.answer wm corpus w p).1 v ∧
      spoken (ModelServer.answer wm corpus w p).2 = [] := by
  have hpredict : p.1 ≠ PacketType.predict.code := by
    rw [hp]
    decide
  have htrain : p.1 ≠ PacketType.train.code := by
    rw [hp]
    decide
  rw [ModelServer.answer, if_neg hpredict, if_neg htrain, if_pos hp]
  refine ⟨h.writeSummary w v hwv, ?_⟩
  rw [spoken, List.filter_eq_nil_iff]
  intro r hr
  obtain ⟨body, -, rfl⟩ := List.mem_map.mp hr
  simp

lemma answers {w : W} {v : V} (hwv : R w v) (corpus : Option Bytes) (ps : List Processed) :
    R (answers wm corpus w ps).1 (answers wm' corpus v (unsummarised ps)).1 ∧
      spoken (ModelServer.answers wm corpus w ps).2 =
        (ModelServer.answers wm' corpus v (unsummarised ps)).2 := by
  induction ps generalizing w v with
  | nil => exact ⟨hwv, rfl⟩
  | cons p ps ih =>
    have hsplit (w : W) : spoken (ModelServer.answers wm corpus w (p :: ps)).2 =
        spoken (ModelServer.answer wm corpus w p).2 ++
          spoken (ModelServer.answers wm corpus (ModelServer.answer wm corpus w p).1 ps).2 :=
      List.filter_append _ _
    rw [hsplit]
    by_cases hp : p.1 = PacketType.summary.code
    · obtain ⟨hnext, hnone⟩ := h.answer_summary hwv corpus hp
      obtain ⟨hlast, hspoken⟩ := ih hnext
      have hdrop : unsummarised (p :: ps) = unsummarised ps := by simp [unsummarised, hp]
      rw [hdrop, hnone, List.nil_append]
      exact ⟨hlast, hspoken⟩
    · obtain ⟨hnext, hone⟩ := h.answer hwv corpus hp
      obtain ⟨hlast, hspoken⟩ := ih hnext
      have hkeep : unsummarised (p :: ps) = p :: unsummarised ps := by simp [unsummarised, hp]
      rw [hkeep, hone, hspoken]
      exact ⟨hlast, rfl⟩

lemma dialogue {w : W} {v : V} (hwv : R w v) (bodies : List Bytes) :
    Service.dialogue wm w bodies = Service.dialogue wm' v bodies := by
  induction bodies generalizing w v with
  | nil => rfl
  | cons body bodies ih =>
    obtain ⟨hnext, htext⟩ := h.getPrediction _ _ (h.foldl_putc hwv body)
    rw [Service.dialogue, Service.dialogue, htext, ih hnext]

end Refines

/-- From related states no operation fails, and the second model does what the first one does. -/
structure Fallible.Tracked (s : Fallible ε W) (wm : Served V) (R : W → V → Prop) : Prop where
  putc : ∀ w v c, R w v → ∃ w', s.putc w c = .ok w' ∧ R w' (wm.putc v c)
  getPrediction : ∀ w v, R w v → ∃ w', s.getPrediction w = .ok (w', (wm.getPrediction v).2) ∧
    R w' (wm.getPrediction v).1
  writeSummary : ∀ w v, R w v → ∃ r, s.writeSummary w = .ok r ∧ R r.1 v
  trainingMistakes : ∀ w v, R w v → s.trainingMistakes w = wm.trainingMistakes v

namespace Fallible.Tracked

variable {s : Fallible ε W} {wm : Served V} {R : W → V → Prop} (h : s.Tracked wm R)

include h

lemma putc_ok (w : { w // ∃ v, R w v }) (c : UInt8) :
    ∃ w', s.putc w.1 c = .ok w' ∧ ∃ v, R w' v := by
  obtain ⟨w, v, hwv⟩ := w
  obtain ⟨w', he, hnext⟩ := h.putc w v c hwv
  exact ⟨w', he, _, hnext⟩

lemma getPrediction_ok (w : { w // ∃ v, R w v }) :
    ∃ r, s.getPrediction w.1 = .ok r ∧ ∃ v, R r.1 v := by
  obtain ⟨w, v, hwv⟩ := w
  obtain ⟨w', he, hnext⟩ := h.getPrediction w v hwv
  exact ⟨_, he, _, hnext⟩

lemma writeSummary_ok (w : { w // ∃ v, R w v }) :
    ∃ r, s.writeSummary w.1 = .ok r ∧ ∃ v, R r.1 v := by
  obtain ⟨w, v, hwv⟩ := w
  obtain ⟨r, he, hnext⟩ := h.writeSummary w v hwv
  exact ⟨r, he, v, hnext⟩

omit h in
def served (h : s.Tracked wm R) : Served { w // ∃ v, R w v } where
  putc w c := certain (s.putc w.1 c) (h.putc_ok w c)
  getPrediction w :=
    let r := certain (s.getPrediction w.1) (h.getPrediction_ok w)
    (⟨r.1.1, r.2⟩, r.1.2)
  writeSummary w :=
    let r := certain (s.writeSummary w.1) (h.writeSummary_ok w)
    (⟨r.1.1, r.2⟩, r.1.2)
  trainingMistakes w := s.trainingMistakes w.1

lemma refines : Refines h.served wm (fun w v => R w.1 v) where
  putc w v c hwv := by
    obtain ⟨w', he, hnext⟩ := h.putc w.1 v c hwv
    have hsame := Except.ok.inj ((certain_eq (h.putc_ok w c)).symm.trans he)
    exact hsame.symm ▸ hnext
  getPrediction w v hwv := by
    obtain ⟨w', he, hnext⟩ := h.getPrediction w.1 v hwv
    have hsame := Except.ok.inj ((certain_eq (h.getPrediction_ok w)).symm.trans he)
    have hstate : (h.served.getPrediction w).1.1 = w' := congrArg Prod.fst hsame
    exact ⟨hstate.symm ▸ hnext, congrArg Prod.snd hsame⟩
  writeSummary w v hwv := by
    obtain ⟨r, he, hnext⟩ := h.writeSummary w.1 v hwv
    have hsame := Except.ok.inj ((certain_eq (h.writeSummary_ok w)).symm.trans he)
    have hstate : (h.served.writeSummary w).1.1 = r.1 := congrArg Prod.fst hsame
    exact hstate.symm ▸ hnext
  trainingMistakes w v hwv := h.trainingMistakes w.1 v hwv

end Fallible.Tracked

end WordModel.ModelServer
