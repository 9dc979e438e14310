import WordModel.BoundedCTModel.Learner

/-! The tree of a model that hears words is the table of the n-grams it got wrong, as long as
its depths are `int`s. -/

namespace WordModel.BoundedCTModel

open Checked ContextTree Follow

/-- The tree is the table, as deep as the bound allows. -/
structure NGramTable (m : BoundedCTModel) (bound : ℕ) (table : List (Word × List Word)) :
    Prop where
  reached : ∀ s, s ≠ [] → s.length ≤ bound - 1 →
    ((∃ v, m.Leads s v) ↔ ∃ g ∈ table, s <+: g.2)
  unique : ∀ s v v', m.Leads s v → m.Leads s v' → v = v'
  weight : ∀ s v, s ≠ [] → s.length ≤ bound - 1 → m.Leads s v → ∀ w,
    m.weightOf v w = -(table.countP (fun g => g.1 = w ∧ s <+: g.2) : ℤ)
  only : ∀ v, v < m.ct.tree.length → v ≠ m.ct.root →
    ∃ s, s ≠ [] ∧ s.length ≤ bound - 1 ∧ m.Leads s v

lemma Tabled.ngramTable {m : BoundedCTModel} (hf : Fitting m) {table : List (Word × List Word)}
    (ht : Tabled m table) (hpos : 1 ≤ m.bound.toNat) : NGramTable m m.bound.toNat table := by
  have hreached {w : List Word} (hw : w ≠ []) :
      (∃ v, m.Leads w v) ↔ w.length < m.bound.toNat ∧ ∃ g ∈ table, w <+: g.2 := by
    simp only [leads_iff hf ht.wooded]
    rw [← ht.reached w hw, Option.isSome_iff_exists]
  refine ⟨?_, ?_, ?_, ?_⟩
  · intro w hw hlen
    rw [hreached hw, and_iff_right (by omega)]
  · intro w v v' hv hv'
    rw [leads_iff hf ht.wooded] at hv hv'
    rw [hv, Option.some.injEq] at hv'
    exact hv'
  · intro w v hw _ hv
    exact ht.weight w v hw ((leads_iff hf ht.wooded).mp hv)
  · intro v hv hne
    obtain ⟨w, hw⟩ := ht.named v hv
    have hroot : m.ct.root = rootNode := hf.sound.root_eq
    have hnil : w ≠ [] := by
      rintro rfl
      exact hne (by rw [hroot]; exact (Option.some.inj hw).symm)
    have hleads := (leads_iff hf ht.wooded).mpr hw
    obtain ⟨hlen, -⟩ := (hreached hnil).mp ⟨v, hleads⟩
    exact ⟨w, hnil, Nat.le_sub_one_of_lt hlen, hleads⟩

section

variable {m : BoundedCTModel} (hf : Fitting m) (hbare : m.ct.tree.length = 1)

include hf hbare

lemma Leads.of_bare {s : List Word} {v : ℕ} (h : m.Leads s v) : s = [] ∧ v = m.ct.root := by
  obtain ⟨ns, ts, hns, hts, hpath⟩ := h
  cases hpath with
  | root =>
    cases hts
    cases hns
    exact ⟨rfl, rfl⟩
  | child _ hchild =>
    obtain ⟨hlt, hlen⟩ := hf.sound.ordered.older _ _ hchild
    omega

lemma ngramTable_bare_iff {bound : ℕ} (htwo : 2 ≤ bound) {table : List (Word × List Word)}
    (htable : ∀ g ∈ table, g.2 ≠ []) : NGramTable m bound table ↔ table = [] := by
  constructor
  · intro h
    by_contra hne
    obtain ⟨g, hg⟩ := List.exists_mem_of_ne_nil _ hne
    obtain ⟨w, context, hcontext⟩ := List.exists_cons_of_ne_nil (htable g hg)
    obtain ⟨v, hv⟩ := (h.reached [w] (List.cons_ne_nil w []) (Nat.le_sub_one_of_lt htwo)).mpr
      ⟨g, hg, hcontext ▸ List.prefix_append [w] context⟩
    exact List.cons_ne_nil w [] (hv.of_bare hf hbare).1
  · rintro rfl
    refine ⟨fun s hs _ => ⟨?_, ?_⟩, fun s v v' hv hv' => ?_, fun s v hs _ hv => ?_, fun v hv hne => ?_⟩
    · rintro ⟨v, hv⟩
      exact (hs (hv.of_bare hf hbare).1).elim
    · rintro ⟨g, hg, -⟩
      cases hg
    · rw [(hv.of_bare hf hbare).2, (hv'.of_bare hf hbare).2]
    · exact (hs (hv.of_bare hf hbare).1).elim
    · rw [hf.sound.root_eq] at hne
      omega

end

lemma mistakenSteps_context {bound : ℕ} (hpos : 1 ≤ bound) {log : List Commit} :
    ∀ g ∈ mistakenSteps bound log, g.2 ≠ [] := by
  induction log using List.reverseRecOn with
  | nil => simp [mistakenSteps]
  | append_singleton log e ih =>
    intro g hg
    rw [mistakenSteps_concat] at hg
    rcases List.mem_append.mp hg with hg | hg
    · exact ih g hg
    · split at hg
      · obtain rfl := List.mem_singleton.mp hg
        have hne : log ≠ [] := by tauto
        simp [contextBefore, hne, Nat.one_le_iff_ne_zero.mp hpos]
      · cases hg

theorem ngrams_law (pastEnd : Graph → ℕ → ℕ → ℕ) (bound : UInt32) (hpos : 1 ≤ bound.toNat)
    (predictionId : ℕ) (hid : (fresh bound predictionId).ct.validateId predictionId = false)
    (calls : List Call) (hcalls : ∀ c ∈ calls, c.hears = true) :
    ∃ s, Reached ⟨pastEnd, .dropped⟩ (fun _ c => c.hears = true) bound predictionId calls s ∧
      (bound.toNat < 2 ^ 31 - 1 ∨ bound.toNat = 2 ^ 31 - 1 ∧ (heard calls).length < 2 ^ 31 →
        NGramTable s.1 bound.toNat (mistakenSteps bound.toNat s.2)) ∧
      (2 ^ 31 ≤ bound.toNat → (NGramTable s.1 bound.toNat (mistakenSteps bound.toNat s.2) ↔
        mistakenSteps bound.toNat s.2 = [])) := by
  obtain ⟨s, h⟩ := Reached.exists_of_hears pastEnd bound hid hcalls
  have hl := h.learning hpos
  obtain ⟨hf, -⟩ := hl.fitting
  refine ⟨s, h, fun hfits => ?_, fun hlarge => ?_⟩
  · have hbrief : Brief bound (s.2.map (·.word)) := by
      rw [h.heard]
      exact Brief.of_length (by omega)
    obtain ⟨ht, -⟩ := (hl.learns hbrief).2 (by omega)
    rw [← hl.bound_eq] at ht hpos ⊢
    exact ht.ngramTable hf hpos
  · exact ngramTable_bare_iff hf (hl.bare hlarge) (by omega) (mistakenSteps_context hpos)

theorem ngrams_law_three : ∃ s,
    Reached ⟨fun _ _ _ => 0, .dropped⟩ (fun _ c => c.hears = true) 5 7 [.putc 97, .interface true,
      .putc 98, .interface true, .getPrediction none, .putc 97, .interface true] s ∧
    NGramTable s.1 5 (mistakenSteps 5 s.2) := by
  obtain ⟨s, h, htable, -⟩ := ngrams_law (fun _ _ _ => 0) 5 (by decide) 7 (by decide)
    [.putc 97, .interface true, .putc 98, .interface true, .getPrediction none, .putc 97,
      .interface true] (by decide)
  exact ⟨s, h, htable (Or.inl (by decide))⟩

theorem ngrams_law_fails : ¬ ∀ (bound : UInt32) (predictionId : ℕ) (calls : List Call)
    (s : BoundedCTModel × List Commit), 1 ≤ bound.toNat →
    (fresh bound predictionId).ct.validateId predictionId = false →
    Reached ⟨fun _ _ _ => 0, .dropped⟩ (fun _ c => c.hears = true) bound predictionId calls s →
    NGramTable s.1 bound.toNat (mistakenSteps bound.toNat s.2) := by
  intro h
  obtain ⟨s, hsteps, hlength, hrun⟩ : ∃ s : BoundedCTModel × List Commit,
      mistakenSteps 2147483648 s.2 = [([98], [[97]])] ∧ s.1.ct.tree.length = 1 ∧
      Reached ⟨fun _ _ _ => 0, .dropped⟩ (fun _ c => c.hears = true) 2147483648 7
        [.putc 97, .interface true, .putc 98, .interface true] s :=
    ⟨_, by decide, by decide, .cons rfl rfl (.cons rfl rfl (.cons rfl rfl (.cons rfl rfl .nil)))⟩
  have htable := h 2147483648 7 _ _ (by decide) (by decide) hrun
  obtain ⟨v, ns, ts, hns, hts, hpath⟩ := (htable.reached [[97]] (by simp) (by decide)).mpr
    ⟨([98], [[97]]), by simp [hsteps], List.prefix_rfl⟩
  cases hpath with
  | root =>
    cases hts
    cases hns
  | child _ hchild =>
    obtain ⟨hlt, hlen⟩ := hrun.fitting.1.sound.ordered.older _ _ hchild
    omega

end WordModel.BoundedCTModel
