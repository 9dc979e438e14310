import Mathlib.Data.List.Basic
import Mathlib.Tactic.Common

/-! Machines that answer each of their inputs, and a rule by which two of them cannot be
told apart. -/

namespace WordModel.Answers

variable {σ τ ι ω ε : Type}

def answers (act : σ → ι → Except ε (σ × ω)) (s : σ) : List ι → Except ε (List ω)
  | [] => .ok []
  | i :: is => do
    let (t, o) ← act s i
    let os ← answers act t is
    return o :: os

inductive Trace (act : σ → ι → Except ε (σ × ω)) : σ → List ι → List ω → σ → Prop
  | nil {s} : Trace act s [] [] s
  | cons {s m t i o is os} : act s i = .ok (m, o) → Trace act m is os t →
      Trace act s (i :: is) (o :: os) t

/-- Related states give the same answer, or fail in the same way, and stay related. -/
def InStep (act : σ → ι → Except ε (σ × ω)) (act' : τ → ι → Except ε (τ × ω))
    (R : σ → τ → Prop) : Prop :=
  ∀ s t i, R s t →
    (∃ s' t' o, act s i = .ok (s', o) ∧ act' t i = .ok (t', o) ∧ R s' t') ∨
    ∃ e, act s i = .error e ∧ act' t i = .error e

section

variable {act : σ → ι → Except ε (σ × ω)} {act' : τ → ι → Except ε (τ × ω)}

lemma Trace.append {s m t : σ} {is js : List ι} {os ps : List ω} (h : Trace act s is os m)
    (h' : Trace act m js ps t) : Trace act s (is ++ js) (os ++ ps) t := by
  induction h with
  | nil => exact h'
  | cons he _ ih => exact .cons he (ih h')

lemma Trace.answers_eq {s t : σ} {is : List ι} {os : List ω} (h : Trace act s is os t) :
    answers act s is = .ok os := by
  induction h with
  | nil => rfl
  | cons he _ ih =>
    rw [answers, he]
    simp only [bind, Except.bind, ih]
    rfl

lemma Trace.answers_concat {s m t : σ} {is : List ι} {os : List ω} {i : ι} {o : ω}
    (h : Trace act s is os m) (he : act m i = .ok (t, o)) :
    answers act s (is ++ [i]) = .ok (os ++ [o]) :=
  (h.append (.cons he .nil)).answers_eq

lemma InStep.answers_eq {R : σ → τ → Prop} (h : InStep act act' R) {s : σ} {t : τ} (hst : R s t)
    (is : List ι) : answers act s is = answers act' t is := by
  induction is generalizing s t with
  | nil => rfl
  | cons i is ih =>
    rw [answers, answers]
    rcases h s t i hst with ⟨s', t', o, hs, ht, hrel⟩ | ⟨e, hs, ht⟩
    · rw [hs, ht]
      simp only [bind, Except.bind, ih hrel]
    · rw [hs, ht]
      rfl

end

end WordModel.Answers
