import WordModel.ContextTree.Basic
import Mathlib.Data.List.Range
import Mathlib.Data.List.Perm.Basic

/-! The pool of context ids: every id is in exactly one of the two queues, and an
activation takes one that no unsettled prediction holds. -/

namespace WordModel.ContextTree

open Checked

variable {DataType ContextData : Type}

/-- The two queues hold each of `0, …, maxContexts - 1` once. -/
def Pooled (t : ContextTree DataType ContextData) : Prop :=
  (t.activeIds ++ t.inactiveIds).Perm (List.range t.maxContexts)

namespace Pooled

variable {t : ContextTree DataType ContextData} (h : t.Pooled)

include h

lemma nodup : (t.activeIds ++ t.inactiveIds).Nodup :=
  h.nodup_iff.mpr List.nodup_range

lemma active_nodup : t.activeIds.Nodup := (List.nodup_append.mp h.nodup).1

lemma mem_iff {contextId : ℕ} :
    contextId ∈ t.activeIds ∨ contextId ∈ t.inactiveIds ↔ contextId < t.maxContexts := by
  rw [← List.mem_append, List.Perm.mem_iff h, List.mem_range]

lemma active_lt {contextId : ℕ} (ha : contextId ∈ t.activeIds) : contextId < t.maxContexts :=
  h.mem_iff.mp (Or.inl ha)

lemma not_inactive {contextId : ℕ} (ha : contextId ∈ t.activeIds) :
    contextId ∉ t.inactiveIds := fun hi => (List.nodup_append.mp h.nodup).2.2 _ ha _ hi rfl

/-- `validate_id` accepts the active ids and one id more, the size of the pool. -/
lemma validateId_iff {contextId : ℕ} :
    t.validateId contextId = true ↔ contextId ∈ t.activeIds ∨ contextId = t.maxContexts := by
  have hm : contextId ∈ t.activeIds ∨ contextId ∈ t.inactiveIds ↔ contextId < t.maxContexts :=
    h.mem_iff
  constructor
  · intro hv
    simp only [validateId, Bool.and_eq_true, Bool.not_eq_true', decide_eq_false_iff_not,
      not_lt, List.contains_eq_mem] at hv
    by_cases hlt : contextId < t.maxContexts
    · exact Or.inl ((hm.mpr hlt).resolve_right hv.2)
    · exact Or.inr (by omega)
  · rintro (ha | rfl)
    · have := h.active_lt ha
      simp [validateId, h.not_inactive ha]
      omega
    · have : t.maxContexts ∉ t.inactiveIds := fun hi => by
        have := hm.mp (Or.inr hi)
        omega
      simp [validateId, this]

lemma deactivateContext {contextId : ℕ} (ha : contextId ∈ t.activeIds) :
    (t.deactivateContext contextId).Pooled := by
  have hp : (contextId :: t.activeIds.erase contextId).Perm t.activeIds :=
    (List.perm_cons_erase ha).symm
  calc (t.activeIds.erase contextId ++ (t.inactiveIds ++ [contextId])).Perm
        (contextId :: (t.activeIds.erase contextId ++ t.inactiveIds)) := by
          rw [← List.append_assoc]
          exact List.perm_append_singleton _ _
    _ |>.Perm (t.activeIds ++ t.inactiveIds) := hp.append_right _
    _ |>.Perm (List.range t.maxContexts) := h

end Pooled

lemma flushLoop_spec {n : ℕ} (active inactive : List ℕ)
    (hn : n ≤ active.length + inactive.length) :
    ∃ flushed rest, active = flushed ++ rest ∧
      flushLoop n active inactive = .ok (rest, inactive ++ flushed) ∧
      n ≤ 2 * (inactive ++ flushed).length := by
  induction active generalizing inactive with
  | nil =>
    simp only [List.length_nil, Nat.zero_add] at hn
    exact ⟨[], [], rfl, by simp [flushLoop]; omega, by simp; omega⟩
  | cons a active ih =>
    by_cases hlt : 2 * inactive.length < n
    · obtain ⟨flushed, rest, rfl, he, hl⟩ := ih (inactive ++ [a]) (by
        simp only [List.length_cons, List.length_append, List.length_nil] at hn ⊢
        omega)
      exact ⟨a :: flushed, rest, rfl, by simpa [flushLoop, hlt] using he, by simpa using hl⟩
    · exact ⟨[], a :: active, rfl, by simp [flushLoop, hlt], by simpa using hlt⟩

structure Activated (t t' : ContextTree DataType ContextData) (contextId : ℕ)
    (con : Context ContextData) : Prop where
  kept : ∃ flushed active inactive, t.activeIds = flushed ++ active ∧
    t'.activeIds = active ++ [contextId] ∧ t'.inactiveIds = inactive ∧ contextId ∉ active
  pooled : t'.Pooled
  lt : contextId < t.maxContexts
  context : ∃ old, t.contexts[contextId]? = some old ∧
    con = { old with additionSize := 0, leaf := t.root }
  same : t' = { t with
    activeIds := t'.activeIds, inactiveIds := t'.inactiveIds
    contexts := t.contexts.set contextId con }

lemma activateContext_spec {t : ContextTree DataType ContextData} (h : t.Pooled)
    (hM : 0 < t.maxContexts) (hc : t.contexts.length = t.maxContexts) :
    ∃ contextId con t', t.activateContext = .ok (contextId, con, t') ∧
      Activated t t' contextId con := by
  -- with the inactive queue filled, the rest is the same for both cases
  have take (flushed active : List ℕ) (contextId : ℕ) (inactive : List ℕ)
      (ha : t.activeIds = flushed ++ active)
      (hp : (active ++ contextId :: inactive).Perm (List.range t.maxContexts)) :
      ∃ con, t.contexts[contextId]? = some con ∧
        Activated t { t with
            inactiveIds := inactive, activeIds := active ++ [contextId]
            contexts := t.contexts.set contextId { con with additionSize := 0, leaf := t.root } }
          contextId { con with additionSize := 0, leaf := t.root } := by
    have hlt : contextId < t.maxContexts := List.mem_range.mp (hp.mem_iff.mp (by simp))
    have hget := List.getElem?_eq_getElem (l := t.contexts) (i := contextId) (by omega)
    refine ⟨_, hget, ⟨flushed, active, inactive, ha, rfl, rfl, ?_⟩, ?_, hlt, ⟨_, hget, rfl⟩, rfl⟩
    · have hd := hp.nodup_iff.mpr List.nodup_range
      exact fun hm => (List.nodup_append.mp hd).2.2 _ hm _ (by simp) rfl
    · simpa [Pooled] using hp
  cases hi : t.inactiveIds with
  | cons contextId inactive =>
    obtain ⟨con, hget, hact⟩ := take [] t.activeIds contextId inactive rfl (by
      simpa [Pooled, hi] using h)
    exact ⟨contextId, _, _, by simp [activateContext, hi, popFront, fetch_of_getElem? hget], hact⟩
  | nil =>
    have hlen : t.activeIds.length = t.maxContexts := by
      simpa [hi] using List.Perm.length_eq h
    obtain ⟨flushed, rest, ha, he, hl⟩ := flushLoop_spec (n := t.maxContexts)
      t.activeIds [] (by simp [hlen])
    cases flushed with
    | nil => simp at hl; omega
    | cons contextId inactive =>
      obtain ⟨con, hget, hact⟩ := take (contextId :: inactive) rest contextId inactive ha (by
        refine List.Perm.trans ?_ (by simpa [Pooled, hi, ha] using h)
        simpa using List.perm_middle.trans (List.Perm.cons _ List.perm_append_comm))
      refine ⟨contextId, _, _, ?_, hact⟩
      simp [activateContext, hi, flushIds, he, popFront, fetch_of_getElem? hget]

def takeContext (t : ContextTree DataType ContextData) :
    Exec Container (ℕ × Context ContextData × ContextTree DataType ContextData) := do
  let (contextId, inactive) ← popFront .inactiveIds t.inactiveIds
  let con ← fetch .contexts t.contexts contextId
  let con := { con with additionSize := 0, leaf := t.root }
  return (contextId, con,
    { t with
      inactiveIds := inactive
      activeIds := t.activeIds ++ [contextId]
      contexts := t.contexts.set contextId con })

lemma activateContext_eq (t : ContextTree DataType ContextData) : t.activateContext =
    (if t.inactiveIds = [] then t.flushIds else pure t) >>= takeContext := by
  rw [activateContext]
  split <;> rfl

lemma takeContext_same {t t' : ContextTree DataType ContextData} {contextId : ℕ}
    {con : Context ContextData} (h : t.takeContext = .ok (contextId, con, t')) :
    t'.activeIds = t.activeIds ++ [contextId] ∧ t'.tree = t.tree ∧ t'.tokens = t.tokens ∧
      t'.root = t.root := by
  obtain ⟨⟨id, inactive⟩, _, h⟩ := bind_eq_ok.mp h
  obtain ⟨con₁, _, h⟩ := bind_eq_ok.mp h
  obtain rfl := congrArg (fun r => r.1) (Except.ok.inj h)
  obtain rfl := congrArg (fun r => r.2.2) (Except.ok.inj h)
  exact ⟨rfl, rfl, rfl, rfl⟩

lemma flushIds_same {t t' : ContextTree DataType ContextData} (h : t.flushIds = .ok t') :
    t'.tree = t.tree ∧ t'.tokens = t.tokens ∧ t'.root = t.root := by
  obtain ⟨⟨active, inactive⟩, _, h⟩ := bind_eq_ok.mp h
  obtain rfl := Except.ok.inj h
  exact ⟨rfl, rfl, rfl⟩

lemma activateContext_same {t t' : ContextTree DataType ContextData} {contextId : ℕ}
    {con : Context ContextData} (h : t.activateContext = .ok (contextId, con, t')) :
    t'.tree = t.tree ∧ t'.tokens = t.tokens ∧ t'.root = t.root := by
  rw [activateContext_eq] at h
  obtain ⟨t₁, ht₁, h⟩ := bind_eq_ok.mp h
  obtain ⟨_, htree, htokens, hroot⟩ := takeContext_same h
  rw [htree, htokens, hroot]
  split at ht₁
  · exact flushIds_same ht₁
  · obtain rfl := Except.ok.inj ht₁
    exact ⟨rfl, rfl, rfl⟩

end WordModel.ContextTree
