import Mathlib.Data.List.Basic
import Mathlib.Tactic.Common

/-! Runs of a step function that may fail, under a condition that each input
meets in the state it arrives in, and what an observer writes down of them. -/

namespace WordModel.Runs

variable {σ ι ε β : Type}

inductive Run (step : σ → ι → Except ε σ) (guard : σ → ι → Prop) : σ → List ι → σ → Prop
  | nil {s} : Run step guard s [] s
  | cons {s m t i is} : guard s i → step s i = .ok m → Run step guard m is t →
      Run step guard s (i :: is) t

def traced (step : σ → ι → Except ε σ) (out : σ → ι → σ → List β) (s : σ × List β) (i : ι) :
    Except ε (σ × List β) :=
  (step s.1 i).map (fun t => (t, s.2 ++ out s.1 i t))

section

variable {step : σ → ι → Except ε σ} {guard : σ → ι → Prop} {out : σ → ι → σ → List β}

lemma Run.append {s m t : σ} {is js : List ι} (h : Run step guard s is m)
    (h' : Run step guard m js t) : Run step guard s (is ++ js) t := by
  induction h with
  | nil => exact h'
  | cons hg he _ ih => exact .cons hg he (ih h')

lemma Run.mono {guard' : σ → ι → Prop} {s t : σ} {is : List ι} (h : Run step guard s is t)
    (hguard : ∀ s i, guard s i → guard' s i) : Run step guard' s is t := by
  induction h with
  | nil => exact .nil
  | cons hg he _ ih => exact .cons (hguard _ _ hg) he ih

lemma Run.forall_mem {Q : ι → Prop} {s t : σ} {is : List ι} (h : Run step guard s is t)
    (hguard : ∀ s i, guard s i → Q i) : ∀ i ∈ is, Q i := by
  induction h with
  | nil => exact fun i hi => absurd hi List.not_mem_nil
  | cons hg _ _ ih => exact List.forall_mem_cons.mpr ⟨hguard _ _ hg, ih⟩

lemma Run.unguarded {s t : σ} {is : List ι} (h : Run step guard s is t) :
    Run step (fun _ _ => True) s is t := h.mono fun _ _ _ => trivial

lemma Run.map {τ κ ε' : Type} {f : τ → κ → Except ε' τ} {guard' : τ → κ → Prop} {F : σ → τ}
    {g : ι → κ} {s t : σ} {is : List ι} (h : Run step guard s is t)
    (hmap : ∀ s i t, guard s i → step s i = .ok t → guard' (F s) (g i) ∧ f (F s) (g i) = .ok (F t)) :
    Run f guard' (F s) (is.map g) (F t) := by
  induction h with
  | nil => exact .nil
  | cons hg he _ ih =>
    obtain ⟨hg', he'⟩ := hmap _ _ _ hg he
    exact .cons hg' he' ih

lemma Run.concat {s m t : σ} {is : List ι} {i : ι} (h : Run step guard s is m)
    (hg : guard m i) (he : step m i = .ok t) : Run step guard s (is ++ [i]) t :=
  h.append (.cons hg he .nil)

lemma Run.invariant {P : σ → Prop} {s t : σ} {is : List ι} (h : Run step guard s is t)
    (hstep : ∀ s i t, P s → guard s i → step s i = .ok t → P t) (hs : P s) : P t := by
  induction h with
  | nil => exact hs
  | cons hg he _ ih => exact ih (hstep _ _ _ hs hg he)

lemma Run.invariant_of_mem {P : σ → Prop} {s t : σ} {is : List ι} (h : Run step guard s is t)
    (hstep : ∀ s t, ∀ i ∈ is, P s → guard s i → step s i = .ok t → P t) (hs : P s) : P t := by
  induction h with
  | nil => exact hs
  | @cons _ _ _ i is hg he _ ih =>
    refine ih (fun s t j hj => hstep s t j (List.mem_cons_of_mem _ hj)) ?_
    exact hstep _ _ i (by simp) hs hg he

lemma Run.history {P : List ι → σ → Prop} {s t : σ} {is : List ι} (h : Run step guard s is t)
    (hstep : ∀ js s i t, P js s → guard s i → step s i = .ok t → P (js ++ [i]) t)
    (hs : P [] s) : P is t := by
  suffices hfrom : ∀ js, P js s → P (js ++ is) t from hfrom [] hs
  clear hs
  induction h with
  | nil =>
    intro js hs
    rwa [List.append_nil]
  | @cons s m t i is hg he _ ih =>
    intro js hs
    have hm := ih (js ++ [i]) (hstep js s i m hs hg he)
    rwa [List.append_assoc] at hm

lemma traced_eq_ok {s t : σ × List β} {i : ι} :
    traced step out s i = .ok t ↔ step s.1 i = .ok t.1 ∧ t.2 = s.2 ++ out s.1 i t.1 := by
  obtain ⟨t, l⟩ := t
  rw [traced]
  cases step s.1 i with
  | error e => simp [Except.map]
  | ok m =>
    simp only [Except.map, Except.ok.injEq, Prod.mk.injEq]
    constructor
    · rintro ⟨rfl, rfl⟩
      exact ⟨rfl, rfl⟩
    · rintro ⟨rfl, rfl⟩
      exact ⟨rfl, rfl⟩

lemma Run.traced_invariant {P : σ × List β → Prop} {guard : σ × List β → ι → Prop}
    {s t : σ × List β} {is : List ι} (h : Run (traced step out) guard s is t)
    (hstep : ∀ s log i t, P (s, log) → guard (s, log) i → step s i = .ok t →
      P (t, log ++ out s i t)) (hs : P s) : P t := by
  refine h.invariant ?_ hs
  rintro ⟨s, log⟩ i ⟨t, log'⟩ hs hg he
  obtain ⟨he, hlog⟩ := traced_eq_ok.mp he
  dsimp only at he hlog
  rw [hlog]
  exact hstep s log i t hs hg he

lemma Run.exists_of_progress {P : σ → Prop} {s : σ} {is : List ι}
    (hstep : ∀ s, P s → ∀ i ∈ is, guard s i ∧ ∃ t, step s i = .ok t ∧ P t) (hs : P s) :
    ∃ t, Run step guard s is t ∧ P t := by
  induction is generalizing s with
  | nil => exact ⟨s, .nil, hs⟩
  | cons i is ih =>
    obtain ⟨hg, m, he, hm⟩ := hstep s hs i (by simp)
    obtain ⟨t, hrun, ht⟩ := ih (fun s hs j hj => hstep s hs j (List.mem_cons_of_mem _ hj)) hm
    exact ⟨t, .cons hg he hrun, ht⟩

lemma Run.length_add_le {P : σ → Prop} {f : σ → ℕ} {s t : σ} {is : List ι}
    (h : Run step guard s is t)
    (hstep : ∀ s i t, P s → guard s i → step s i = .ok t → P t ∧ f s < f t) (hs : P s) :
    P t ∧ is.length + f s ≤ f t := by
  induction h with
  | nil => exact ⟨hs, Nat.le_of_eq (Nat.zero_add _)⟩
  | cons hg he _ ih =>
    obtain ⟨hm, hlt⟩ := hstep _ _ _ hs hg he
    obtain ⟨ht, hle⟩ := ih hm
    refine ⟨ht, ?_⟩
    rw [List.length_cons]
    omega

lemma Run.exists_stuck {s : σ} {n : ℕ}
    (hbound : ∀ is t, Run step guard s is t → is.length ≤ n)
    (hgo : ∀ t i, guard t i → ∃ u, step t i = .ok u) :
    ∃ is t, Run step guard s is t ∧ ∀ i, ¬ guard t i := by
  induction n generalizing s with
  | zero =>
    refine ⟨[], s, .nil, fun i hi => ?_⟩
    obtain ⟨t, ht⟩ := hgo s i hi
    exact Nat.not_succ_le_zero 0 (hbound [i] t (.cons hi ht .nil))
  | succ n ih =>
    by_cases h : ∃ i, guard s i
    · obtain ⟨i, hi⟩ := h
      obtain ⟨m, hm⟩ := hgo s i hi
      obtain ⟨is, t, hrun, hstuck⟩ := ih fun is t hrun =>
        Nat.le_of_succ_le_succ (hbound (i :: is) t (.cons hi hm hrun))
      exact ⟨i :: is, t, .cons hi hm hrun, hstuck⟩
    · exact ⟨[], s, .nil, fun i hi => h ⟨i, hi⟩⟩

/-- A property of all states passed through, when one step outside `good` is enough to
break it and it holds as long as no step is. -/
lemma Run.forall_take_iff {P I : σ → Prop} {good : σ → ι → Prop} (hholds : ∀ s, I s → P s)
    (hkeep : ∀ s i t, I s → good s i → step s i = .ok t → I t)
    (hbreak : ∀ s i t, I s → ¬ good s i → step s i = .ok t → ¬ P t) {s t : σ} {is : List ι}
    (h : Run step (fun _ _ => True) s is t) (hs : I s) :
    (∀ k m, Run step (fun _ _ => True) s (is.take k) m → P m) ↔ Run step good s is t := by
  induction h with
  | nil =>
    refine ⟨fun _ => .nil, fun _ k m hm => ?_⟩
    rw [List.take_nil] at hm
    cases hm
    exact hholds _ hs
  | @cons s m t i is _ he _ ih =>
    constructor
    · intro hall
      by_cases hg : good s i
      · refine .cons hg he ((ih (hkeep s i m hs hg he)).mp fun k r hr => hall (k + 1) r ?_)
        exact .cons trivial he hr
      · exact absurd (hall 1 m (.cons trivial he .nil)) (hbreak s i m hs hg he)
    · intro hrun k r hr
      cases hrun with
      | cons hg he' hrest =>
        rw [he, Except.ok.injEq] at he'
        subst he'
        cases k with
        | zero =>
          cases hr
          exact hholds s hs
        | succ k =>
          rw [List.take_succ_cons] at hr
          cases hr with
          | cons _ he' hr =>
            rw [he, Except.ok.injEq] at he'
            subst he'
            exact (ih (hkeep s i m hs hg he)).mpr hrest k r hr

lemma Run.filter {τ ε' : Type} {f : τ → ι → Except ε' τ} {R : σ → τ → Prop} {k : ι → Bool}
    (hkeep : ∀ s s' i t, R s s' → guard s i → step s i = .ok t → k i = true →
      ∃ t', f s' i = .ok t' ∧ R t t')
    (hdrop : ∀ s s' i t, R s s' → guard s i → step s i = .ok t → k i = false → R t s')
    {s t : σ} {is : List ι} (h : Run step guard s is t) {s' : τ} (hs : R s s') :
    ∃ t', Run f (fun _ _ => True) s' (is.filter k) t' ∧ R t t' := by
  induction h generalizing s' with
  | nil => exact ⟨s', .nil, hs⟩
  | @cons s m t i is hg he _ ih =>
    cases hi : k i with
    | true =>
      obtain ⟨m', he', hm⟩ := hkeep s s' i m hs hg he hi
      obtain ⟨t', hr, ht⟩ := ih hm
      rw [List.filter_cons_of_pos hi]
      exact ⟨t', .cons trivial he' hr, ht⟩
    | false =>
      obtain ⟨t', hr, ht⟩ := ih (hdrop s s' i m hs hg he hi)
      rw [List.filter_cons_of_neg (by simp [hi])]
      exact ⟨t', hr, ht⟩

lemma run_iff_foldlM {s t : σ} {is : List ι} :
    Run step (fun _ _ => True) s is t ↔ is.foldlM step s = .ok t := by
  constructor
  · intro h
    induction h with
    | nil => rfl
    | cons _ he _ ih =>
      rw [List.foldlM_cons, he]
      exact ih
  · intro h
    induction is generalizing s with
    | nil =>
      obtain rfl : s = t := Except.ok.inj h
      exact .nil
    | cons i is ih =>
      rw [List.foldlM_cons] at h
      cases he : step s i with
      | error e => simp only [he] at h; cases h
      | ok m =>
        rw [he] at h
        exact .cons trivial he (ih h)

end

end WordModel.Runs
