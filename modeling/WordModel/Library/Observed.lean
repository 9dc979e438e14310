import WordModel.Library.Checked
import WordModel.Library.Answers

/-! Executions that look the same to an observer, who sees their results through a function. -/

namespace WordModel.Checked

open Answers

variable {κ α β γ δ σ ι ω : Type}

def Agree (f : α → γ) (x y : Exec κ α) : Prop := x.map f = y.map f

lemma agree_ok {f : α → γ} {a b : α} (h : f a = f b) :
    Agree f (.ok a : Exec κ α) (.ok b) := congrArg Except.ok h

lemma Agree.refl (f : α → γ) (x : Exec κ α) : Agree f x x := rfl

lemma Agree.cases {f : α → γ} {x y : Exec κ α} (h : Agree f x y) :
    (∃ a b, x = .ok a ∧ y = .ok b ∧ f a = f b) ∨ ∃ e, x = .error e ∧ y = .error e := by
  cases x with
  | ok a =>
    cases y with
    | ok b => exact Or.inl ⟨a, b, rfl, rfl, Except.ok.inj h⟩
    | error e => cases h
  | error e =>
    cases y with
    | ok b => cases h
    | error e' => exact Or.inr ⟨e, rfl, congrArg Except.error (Except.error.inj h).symm⟩

lemma Agree.of_ok {f : α → γ} {x y : Exec κ α} (h : Agree f x y) {a : α} (ha : x = .ok a) :
    ∃ b, y = .ok b ∧ f a = f b := by
  rcases h.cases with ⟨a', b, hx, hy, hab⟩ | ⟨e, hx, -⟩
  · obtain rfl := Except.ok.inj (ha.symm.trans hx)
    exact ⟨b, hy, hab⟩
  · rw [ha] at hx
    cases hx

lemma Agree.bind {f : α → γ} {g : β → δ} {x y : Exec κ α} (h : Agree f x y)
    {k l : α → Exec κ β} (hkl : ∀ a b, f a = f b → Agree g (k a) (l b)) :
    Agree g (x >>= k) (y >>= l) := by
  rcases h.cases with ⟨a, b, rfl, rfl, hab⟩ | ⟨e, rfl, rfl⟩
  · exact hkl a b hab
  · rfl

lemma Agree.foldlM {f : σ → γ} {k : σ → ι → Exec κ σ}
    (hk : ∀ s t i, f s = f t → Agree f (k s i) (k t i)) (is : List ι) {s t : σ} (h : f s = f t) :
    Agree f (is.foldlM k s) (is.foldlM k t) := by
  induction is generalizing s t with
  | nil => exact agree_ok h
  | cons i is ih =>
    rw [List.foldlM_cons, List.foldlM_cons]
    exact (hk s t i h).bind fun a b hab => ih hab

lemma Agree.inStep {act act' : σ → ι → Exec κ (σ × ω)} {f : σ → γ}
    (h : ∀ s t i, f s = f t → Agree (Prod.map f id) (act s i) (act' t i)) :
    InStep act act' (fun s t => f s = f t) := by
  intro s t i hst
  rcases (h s t i hst).cases with ⟨⟨s', o⟩, ⟨t', o'⟩, hs, ht, hsame⟩ | ⟨e, hs, ht⟩
  · obtain ⟨hnext, rfl⟩ := Prod.mk.inj hsame
    exact Or.inl ⟨s', t', o, hs, ht, hnext⟩
  · exact Or.inr ⟨e, hs, ht⟩

end WordModel.Checked
