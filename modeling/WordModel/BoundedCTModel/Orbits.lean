import WordModel.BoundedCTModel.Learner
import WordModel.Library.Firsts
import Mathlib.Dynamics.PeriodicPts.Defs
import Mathlib.Algebra.Order.BigOperators.Group.List
import Mathlib.Data.List.GetD

/-! Words of which each decides the next. However long they go round, there are never more
mistakes than two for each of them. -/

namespace WordModel.BoundedCTModel

open Checked ContextTree Follow Least Learner Firsts

lemma iterate_before {α : Type} {f : α → α} {a : α} {i n k : ℕ} (hn : i ≤ n) (hk : i ≤ k)
    (hi : f^[i] a = f^[n + 1] a) (he : f^[n + 1] a = f^[k + 1] a) : f^[n] a = f^[k] a := by
  have hperiodic : Function.IsPeriodicPt f (n + 1 - i) (f^[i] a) := by
    rw [Function.IsPeriodicPt, Function.IsFixedPt, ← Function.iterate_add_apply,
      Nat.sub_add_cancel (Nat.le_succ_of_le hn), hi]
  have hlater {m : ℕ} (hm : i ≤ m) : Function.IsPeriodicPt f (n + 1 - i) (f^[m] a) := by
    have hh := hperiodic.apply_iterate (m - i)
    rwa [← Function.iterate_add_apply, Nat.sub_add_cancel hm] at hh
  refine (hlater hn).eq_of_apply_eq_same (hlater hk) (by omega) ?_
  rwa [Function.iterate_succ_apply', Function.iterate_succ_apply'] at he

def orbit (f : Word → Word) (w : Word) (n : ℕ) : List Word :=
  (List.range n).map (fun k => f^[k] w)

lemma orbit_succ (f : Word → Word) (w : Word) (n : ℕ) :
    orbit f w (n + 1) = orbit f w n ++ [f^[n] w] := by
  rw [orbit, List.range_succ, List.map_append]
  rfl

lemma mem_orbit {f : Word → Word} {w v : Word} {n : ℕ} :
    v ∈ orbit f w n ↔ ∃ k, k < n ∧ f^[k] w = v := by
  rw [orbit, List.mem_map]
  simp only [List.mem_range]

lemma orbit_nodup {f : Word → Word} {w : Word} {n : ℕ} (h : f^[n] w ∉ orbit f w n) :
    (orbit f w n).Nodup := by
  have hfrom {i j : ℕ} (hij : i < j) (hj : j < n) : f^[i] w ≠ f^[j] w := by
    intro he
    refine h (mem_orbit.mpr ⟨n - j + i, by omega, ?_⟩)
    rw [Function.iterate_add_apply, he, ← Function.iterate_add_apply, Nat.sub_add_cancel hj.le]
  refine List.Nodup.map_on ?_ List.nodup_range
  intro i hi j hj he
  rw [List.mem_range] at hi hj
  rcases Nat.lt_trichotomy i j with hlt | rfl | hgt
  · exact (hfrom hlt hj he).elim
  · rfl
  · exact (hfrom hgt hi he.symm).elim

lemma shared_of_head?_ne {n : ℕ} {xs ys : List Word} (h : xs.head? ≠ ys.head?) :
    shared n xs ys = 0 := by
  cases xs with
  | nil => simp
  | cons x xs =>
    cases ys with
    | nil => cases n <;> rfl
    | cons y ys => exact shared_of_ne (by simpa using h) n xs ys

namespace Learner

lemma support_eq_zero {r : ℕ} {table : List (Word × List Word)} {context : List Word} {v : Word}
    (h : ∀ g ∈ table, g.1 = v → g.2.head? ≠ context.head?) : support r table context v = 0 := by
  rw [support, List.sum_eq_zero_iff]
  intro n hn
  obtain ⟨g, hg, rfl⟩ := List.mem_map.mp hn
  obtain ⟨hmem, hv⟩ := List.mem_filter.mp hg
  exact shared_of_head?_ne (h g hmem (of_decide_eq_true hv))

lemma support_pos {r : ℕ} (hr : 0 < r) {table : List (Word × List Word)} {context : List Word}
    {v x : Word} {g : Word × List Word} (hg : g ∈ table) (hv : g.1 = v) (hx : g.2.head? = some x)
    (hc : context.head? = some x) : 0 < support r table context v := by
  obtain ⟨r, rfl⟩ := Nat.exists_eq_succ_of_ne_zero (Nat.ne_of_gt hr)
  obtain ⟨xs, hxs⟩ := List.head?_eq_some_iff.mp hx
  obtain ⟨ys, hys⟩ := List.head?_eq_some_iff.mp hc
  have hmem : shared (r + 1) g.2 context ∈
      (table.filter (fun g => g.1 = v)).map (fun g => shared (r + 1) g.2 context) :=
    List.mem_map_of_mem (List.mem_filter.mpr ⟨hg, decide_eq_true hv⟩)
  have hle := List.single_le_sum (fun _ _ => Nat.zero_le _) _ hmem
  rw [hxs, hys, shared_cons_self] at hle
  rw [support, hys]
  exact Nat.lt_of_lt_of_le (Nat.succ_pos _) hle

end Learner

/-- Behind the two words that a learner starts with it has those of the orbit, each with a score
that is 0 or, once it has been got wrong a second time, -1. -/
structure Orbiting (f : Word → Word) (w : Word) (n : ℕ) (l : Learner) (debts : List ℤ) : Prop where
  words : l.words = [] :: interfaceToken :: firsts (orbit f w n)
  scores : l.scores = 1 :: 0 :: debts
  length : debts.length = (firsts (orbit f w n)).length
  owed : ∀ d ∈ debts, d = 0 ∨ d = -1
  balance : (l.mistakes : ℤ) + debts.sum = debts.length
  fresh : (orbit f w n).Nodup → ∀ d ∈ debts, d = 0
  start : n = 0 → l.context = []
  context : ∀ k, n = k + 1 → l.context.head? = some (f^[k] w)
  table : ∀ g ∈ l.table, ∃ k, g.1 = f^[k + 1] w ∧ g.2.head? = some (f^[k] w)
  /-- A word with a debt has an entry under every word that it will come after. -/
  settled : ∀ (i : ℕ) (v : Word), debts[i]? = some (-1) → (firsts (orbit f w n))[i]? = some v →
    ∀ k, n ≤ k + 1 → f^[k + 1] w = v → ∃ g ∈ l.table, g.1 = v ∧ g.2.head? = some (f^[k] w)
  predicted : ∀ (i : ℕ) (v : Word), debts[i]? = some (-1) → (firsts (orbit f w n))[i]? = some v →
    (∃ g ∈ l.table, g.1 = v ∧ g.2.head? = l.context.head?) → l.prediction = i + 2
  prediction_lt : l.prediction < l.words.length

lemma initial_orbiting (f : Word → Word) (w : Word) : Orbiting f w 0 Learner.initial [] := by
  refine ⟨rfl, rfl, rfl, by simp, rfl, by simp, fun _ => rfl, ?_, ?_, by simp, by simp, Nat.two_pos⟩
  · exact fun k hk => (Nat.succ_ne_zero k hk.symm).elim
  · intro g hg
    cases hg

section Predict

variable {f : Word → Word} {w : Word} {r n : ℕ} {c : Learner} {debts : List ℤ}
  (hwords : c.words = [] :: interfaceToken :: firsts (orbit f w (n + 1)))
  (hscores : c.scores = 1 :: 0 :: debts) (hlength : debts.length ≤ (firsts (orbit f w (n + 1))).length)
  (howed : ∀ d ∈ debts, d = 0 ∨ d = -1)
  (hcontext : c.context.head? = some (f^[n] w))
  (htable : ∀ g ∈ c.table, ∃ k, g.1 = f^[k + 1] w ∧ g.2.head? = some (f^[k] w))

include hscores howed hcontext htable

lemma total_ge {t : ℕ} (ht : t < c.scores.length) (hdue : c.words.getD t [] ≠ f^[n + 1] w) :
    -1 ≤ c.total r t := by
  have hnone : support r c.table c.context (c.words.getD t []) = 0 := by
    refine support_eq_zero fun g hg hv hhead => hdue ?_
    obtain ⟨k, hgk, hx⟩ := htable g hg
    rw [hx, hcontext, Option.some.injEq] at hhead
    rw [← hv, hgk, Function.iterate_succ_apply', Function.iterate_succ_apply', hhead]
  have hmem : c.scores.getD t 0 ∈ c.scores := by
    rw [List.getD_eq_getElem _ _ ht]
    exact List.getElem_mem ht
  rw [total, hnone]
  rw [hscores] at hmem ⊢
  simp only [List.mem_cons] at hmem
  rcases hmem with h | h | h
  · rw [h]
    decide
  · rw [h]
    decide
  · rcases howed _ h with hd | hd
    · rw [hd]
      decide
    · rw [hd]
      decide

include hwords hlength

lemma predict_due (hr : 0 < r)
    (hplain : ∀ v ∈ orbit f w (n + 1), v ≠ [] ∧ v ≠ interfaceToken) {i : ℕ} {v : Word} (hi : debts[i]? = some (-1))
    (hv : (firsts (orbit f w (n + 1)))[i]? = some v)
    (hentry : ∃ g ∈ c.table, g.1 = v ∧ g.2.head? = c.context.head?) :
    (c.predict r).prediction = i + 2 := by
  obtain ⟨hlt, hscore⟩ := List.getElem?_eq_some_iff.mp hi
  obtain ⟨g, hg, hgv, hhead⟩ := hentry
  have hlen : c.scores.length = debts.length + 2 := by rw [hscores]; rfl
  have hword (j : ℕ) : c.words.getD (j + 2) [] = (firsts (orbit f w (n + 1))).getD j [] := by
    rw [hwords]
    rfl
  have hvd : (firsts (orbit f w (n + 1))).getD i [] = v := by
    rw [List.getD_eq_getElem?_getD, hv]
    rfl
  have hdue : v = f^[n + 1] w := by
    obtain ⟨k, hgk, hx⟩ := htable g hg
    rw [hhead, hcontext, Option.some.injEq] at hx
    rw [← hgv, hgk, Function.iterate_succ_apply', Function.iterate_succ_apply', hx]
  have hlow : c.total r (i + 2) < -1 := by
    have hpos := support_pos hr hg hgv (hhead.trans hcontext) hcontext
    have hs : c.scores.getD (i + 2) 0 = -1 := by
      rw [hscores]
      simpa [hlt] using hscore
    rw [total, hs, hword, hvd]
    omega
  have hothers : ∀ j, j < c.scores.length → j ≠ i + 2 → -1 ≤ c.total r j := by
    intro j hj hne
    refine total_ge hscores howed hcontext htable hj fun hsame => hne ?_
    obtain ⟨hnil, htoken⟩ := hplain v (mem_firsts.mp (List.mem_of_getElem? hv))
    match j with
    | 0 =>
      rw [hwords, ← hdue] at hsame
      exact (hnil hsame.symm).elim
    | 1 =>
      rw [hwords, ← hdue] at hsame
      exact (htoken hsame.symm).elim
    | j + 2 =>
      have hj' : j < (firsts (orbit f w (n + 1))).length := by omega
      rw [hword, ← hdue, List.getD_eq_getElem _ _ hj'] at hsame
      obtain ⟨hi', hget⟩ := List.getElem?_eq_some_iff.mp hv
      rw [(nodup_firsts _).getElem_inj_iff.mp (hsame.trans hget.symm)]
  have hleast : Minimiser (c.total r) c.scores.length (i + 2) := by
    refine ⟨by omega, fun j hj => ?_, fun j hj => ?_⟩
    · by_cases hne : j = i + 2
      · rw [hne]
      · exact hlow.le.trans (hothers j hj hne)
    · exact hlow.trans_le (hothers j (by omega) (Nat.ne_of_lt hj))
  obtain ⟨least, hleast', hscan⟩ := scan_eq (d := c.total r) (n := c.scores.length) (by omega)
    ((c.mistakes : ℤ), 0)
  obtain rfl := hleast.unique hleast'
  rw [Learner.predict]
  dsimp only
  rw [hscan, if_pos (by omega)]

lemma predict_orbiting (hr : 0 < r) (hplain : ∀ v ∈ orbit f w (n + 1), v ≠ [] ∧ v ≠ interfaceToken)
    (hbalance : (c.mistakes : ℤ) + debts.sum = (firsts (orbit f w (n + 1))).length)
    (hfresh : (orbit f w (n + 1)).Nodup → ∀ d ∈ debts, d = 0)
    (hsettled : ∀ (i : ℕ) (v : Word), debts[i]? = some (-1) →
      (firsts (orbit f w (n + 1)))[i]? = some v → ∀ k, n ≤ k → f^[k + 1] w = v →
        ∃ g ∈ c.table, g.1 = v ∧ g.2.head? = some (f^[k] w))
    {added : List ℤ} (hadded : ∀ d ∈ added, d = 0)
    (hgrown : growRootWeights c.mistakes (c.words.length - c.scores.length) c.scores =
      1 :: 0 :: (debts ++ added))
    (hall : (debts ++ added).length = (firsts (orbit f w (n + 1))).length) :
    Orbiting f w (n + 1) (c.predict r) (debts ++ added) := by
  have hold (i : ℕ) (hi : (debts ++ added)[i]? = some (-1)) : debts[i]? = some (-1) := by
    rw [List.getElem?_append] at hi
    split at hi
    · exact hi
    · exact absurd (hadded _ (List.mem_of_getElem? hi)) (by decide)
  refine ⟨hwords, hgrown, hall, ?_, ?_, ?_, fun hn => (Nat.succ_ne_zero n hn).elim, ?_, htable, ?_,
    ?_, ?_⟩
  · intro d hd
    rcases List.mem_append.mp hd with hd | hd
    · exact howed d hd
    · exact Or.inl (hadded d hd)
  · rw [List.sum_append, List.sum_eq_zero hadded, add_zero, hall]
    exact hbalance
  · intro hnodup d hd
    rcases List.mem_append.mp hd with hd | hd
    · exact hfresh hnodup d hd
    · exact hadded d hd
  · intro k hk
    rw [← Nat.succ.inj hk]
    exact hcontext
  · intro i v hi hv k hk he
    exact hsettled i v (hold i hi) hv k (Nat.le_of_succ_le_succ hk) he
  · intro i v hi hv hentry
    exact predict_due hwords hscores hlength howed hcontext htable hr hplain (hold i hi) hv hentry
  · obtain ⟨least, hleast, hscan⟩ := scan_eq (d := c.total r) (n := c.scores.length)
      (by rw [hscores]; exact Nat.succ_pos _) ((c.mistakes : ℤ), 0)
    have hlt : c.scores.length ≤ c.words.length := by
      rw [hwords, hscores]
      simpa using hlength
    rw [Learner.predict]
    dsimp only
    rw [hscan]
    split
    · exact Nat.lt_of_lt_of_le hleast.lt hlt
    · rw [hwords]
      exact Nat.succ_pos _

end Predict

section Hear

variable {f : Word → Word} {w : Word} {n bound r : ℕ} {l : Learner} {debts : List ℤ}
  (h : Orbiting f w n l debts) (hplain : ∀ v ∈ orbit f w (n + 1), v ≠ [] ∧ v ≠ interfaceToken)

include h hplain

lemma Orbiting.enter : enter l.words (f^[n] w) =
    [] :: interfaceToken :: firsts (orbit f w (n + 1)) := by
  obtain ⟨hnil, htoken⟩ := hplain (f^[n] w) (mem_orbit.mpr ⟨n, Nat.lt_succ_self n, rfl⟩)
  rw [Learner.enter, h.words, orbit_succ, firsts_concat]
  simp only [List.mem_cons, hnil, htoken, false_or, mem_firsts]
  split
  · rfl
  · rfl

lemma Orbiting.idxOf_enter : (Learner.enter l.words (f^[n] w)).idxOf (f^[n] w) =
    (firsts (orbit f w (n + 1))).idxOf (f^[n] w) + 2 := by
  obtain ⟨hnil, htoken⟩ := hplain (f^[n] w) (mem_orbit.mpr ⟨n, Nat.lt_succ_self n, rfl⟩)
  rw [h.enter hplain, List.idxOf_cons_ne _ hnil.symm, List.idxOf_cons_ne _ htoken.symm]

-- A word that is in debt is not got wrong again.
lemma Orbiting.not_errs {i : ℕ} (hi : debts[i]? = some (-1))
    (hv : (firsts (orbit f w n))[i]? = some (f^[n] w)) : ¬ l.Errs (f^[n] w) := by
  have hmem : f^[n] w ∈ orbit f w n := mem_firsts.mp (List.mem_of_getElem? hv)
  obtain ⟨k, rfl⟩ : ∃ k, n = k + 1 := by
    obtain ⟨j, hj, -⟩ := mem_orbit.mp hmem
    exact ⟨n - 1, by omega⟩
  have hentry := h.settled i _ hi hv k (Nat.le_refl _) rfl
  rw [← h.context k rfl] at hentry
  have hprediction := h.predicted i _ hi hv hentry
  obtain ⟨hlt, hget⟩ := List.getElem?_eq_some_iff.mp hv
  rw [Errs, h.idxOf_enter hplain, orbit_succ, firsts_concat, if_pos hmem, hprediction, ← hget,
    (nodup_firsts _).idxOf_getElem, not_not]

lemma Orbiting.hear_new (hb : 0 < bound) (hr : 0 < r) (hnew : f^[n] w ∉ orbit f w n) :
    Orbiting f w (n + 1) (l.hear bound r (f^[n] w)) (debts ++ [0]) := by
  have hsame : firsts (orbit f w (n + 1)) = firsts (orbit f w n) ++ [f^[n] w] := by
    rw [orbit_succ, firsts_concat, if_neg hnew]
  have hlength : debts.length + 1 = (firsts (orbit f w (n + 1))).length := by
    rw [hsame, List.length_append, h.length]
    rfl
  have hzero := h.fresh (orbit_nodup hnew)
  have hbalance := h.balance
  rw [List.sum_eq_zero hzero, add_zero] at hbalance
  have hwords := h.enter hplain
  have hidx := h.idxOf_enter hplain
  have hlast : (firsts (orbit f w (n + 1))).idxOf (f^[n] w) = debts.length := by
    rw [hsame, List.idxOf_append_of_notMem (by simpa using hnew), h.length]
    simp
  have herr : l.Errs (f^[n] w) := by
    have hlt := h.prediction_lt
    rw [h.words, List.length_cons, List.length_cons, ← h.length] at hlt
    rw [Errs, hidx, hlast]
    omega
  have hmodify : l.scores.modify (debts.length + 2) (· - 1) = l.scores := by
    rw [List.modify_eq_self]
    simp [h.scores]
  have hscores : (if l.context ≠ [] ∧ l.Errs (f^[n] w) then
      l.scores.modify ((Learner.enter l.words (f^[n] w)).idxOf (f^[n] w)) (· - 1)
      else l.scores) = 1 :: 0 :: debts := by
    rw [hidx, hlast, hmodify, ite_self, h.scores]
  obtain ⟨b, rfl⟩ := Nat.exists_eq_succ_of_ne_zero (Nat.ne_of_gt hb)
  rw [Learner.hear, Learner.correct, hscores, if_pos herr]
  refine predict_orbiting (c := ⟨_, _, _, _, _, _⟩) hwords rfl (by omega) h.owed rfl ?_ hr hplain ?_
    (fun _ => hzero) ?_ (by simp) ?_ (by simpa using hlength)
  · intro g hg
    dsimp only at hg
    split at hg
    · rename_i hboth
      rcases List.mem_append.mp hg with hg | hg
      · exact h.table g hg
      · rw [List.mem_singleton.mp hg]
        cases n with
        | zero => exact (hboth.1 (h.start rfl)).elim
        | succ m => exact ⟨m, rfl, h.context m rfl⟩
    · exact h.table g hg
  · dsimp only
    rw [List.sum_eq_zero hzero, ← hlength]
    push_cast
    omega
  · intro i v hi
    exact absurd (hzero _ (List.mem_of_getElem? hi)) (by decide)
  · have hone : (Learner.enter l.words (f^[n] w)).length - (1 :: 0 :: debts).length = 1 := by
      rw [hwords, List.length_cons, List.length_cons, ← hlength, List.length_cons, List.length_cons]
      omega
    have hsmall : (l.mistakes + 1) / (1 :: 0 :: debts).length = 0 := by
      apply Nat.div_eq_of_lt
      rw [List.length_cons, List.length_cons]
      omega
    change growRootWeights (l.mistakes + 1) ((Learner.enter l.words (f^[n] w)).length -
      (1 :: 0 :: debts).length) (1 :: 0 :: debts) = _
    rw [hone, growRootWeights, growRootWeights, hsmall]
    rfl

end Hear

lemma firsts_of_mem {f : Word → Word} {w : Word} {n : ℕ} (hmem : f^[n] w ∈ orbit f w n) :
    firsts (orbit f w (n + 1)) = firsts (orbit f w n) := by
  rw [orbit_succ, firsts_concat, if_pos hmem]

lemma not_nodup_of_mem {f : Word → Word} {w : Word} {n : ℕ} (hmem : f^[n] w ∈ orbit f w n) :
    ¬ (orbit f w (n + 1)).Nodup := by
  rw [orbit_succ, List.nodup_append]
  exact fun hh => hh.2.2 _ hmem _ (List.mem_singleton_self _) rfl

section Known

variable {f : Word → Word} {w : Word} {m bound r : ℕ} {l : Learner} {debts : List ℤ}
  (h : Orbiting f w (m + 1) l debts)
  (hplain : ∀ v ∈ orbit f w (m + 1 + 1), v ≠ [] ∧ v ≠ interfaceToken)
  (hb : 0 < bound) (hr : 0 < r) (hmem : f^[m + 1] w ∈ orbit f w (m + 1))

include h hplain hmem

-- No word is new, and no score is added.
lemma Orbiting.grown_of_mem {ds : List ℤ} (hds : ds.length = debts.length) (mistakes : ℕ) :
    growRootWeights mistakes ((Learner.enter l.words (f^[m + 1] w)).length -
      (1 :: 0 :: ds).length) (1 :: 0 :: ds) = 1 :: 0 :: (ds ++ []) := by
  rw [h.enter hplain, firsts_of_mem hmem, List.append_nil,
    Nat.sub_eq_zero_of_le (by simp [hds, h.length])]
  rfl

include hb hr

lemma Orbiting.hear_right (hright : ¬ l.Errs (f^[m + 1] w)) :
    Orbiting f w (m + 1 + 1) (l.hear bound r (f^[m + 1] w)) (debts ++ []) := by
  obtain ⟨b, rfl⟩ := Nat.exists_eq_succ_of_ne_zero (Nat.ne_of_gt hb)
  have hsame := firsts_of_mem hmem
  have hlength : debts.length = (firsts (orbit f w (m + 1 + 1))).length := by rw [h.length, hsame]
  have hcorrect : l.correct (f^[m + 1] w) =
      { words := Learner.enter l.words (f^[m + 1] w)
        scores := 1 :: 0 :: debts
        table := l.table
        context := l.context
        prediction := l.prediction
        mistakes := l.mistakes } := by
    have hnot : ¬ (l.context ≠ [] ∧ l.Errs (f^[m + 1] w)) := fun hh => hright hh.2
    rw [Learner.correct, if_neg hnot, if_neg hnot, if_neg hright, h.scores]
  rw [Learner.hear, hcorrect]
  refine predict_orbiting (h.enter hplain) rfl hlength.le h.owed rfl ?_ hr hplain ?_
    (fun hnodup => (not_nodup_of_mem hmem hnodup).elim) ?_ (by simp)
    (h.grown_of_mem hplain hmem rfl _) (by rw [List.append_nil, hlength])
  · exact h.table
  · rw [← hlength]
    exact h.balance
  · intro i v hi hv k hk he
    rw [hsame] at hv
    exact h.settled i v hi hv k (by omega) he

lemma Orbiting.hear_wrong (hwrong : l.Errs (f^[m + 1] w)) :
    ∃ i, Orbiting f w (m + 1 + 1) (l.hear bound r (f^[m + 1] w)) (debts.set i (-1) ++ []) := by
  obtain ⟨b, rfl⟩ := Nat.exists_eq_succ_of_ne_zero (Nat.ne_of_gt hb)
  obtain ⟨j, hj, hjn⟩ := mem_orbit.mp hmem
  have hsame := firsts_of_mem hmem
  have hlength : debts.length = (firsts (orbit f w (m + 1 + 1))).length := by rw [h.length, hsame]
  have hbefore := h.context m rfl
  have hboth : l.context ≠ [] ∧ l.Errs (f^[m + 1] w) := by
    refine ⟨?_, hwrong⟩
    intro hnil
    rw [hnil] at hbefore
    cases hbefore
  generalize hi : (firsts (orbit f w (m + 1 + 1))).idxOf (f^[m + 1] w) = i
  have hlt : i < debts.length := by
    rw [hlength, ← hi, List.idxOf_lt_length_iff, hsame, mem_firsts]
    exact hmem
  have hget : (firsts (orbit f w (m + 1 + 1)))[i]? = some (f^[m + 1] w) := by
    rw [← hi]
    exact List.getElem?_idxOf (by rw [hsame]; exact mem_firsts.mpr hmem)
  have hzero : debts[i] = 0 := by
    refine (h.owed _ (List.getElem_mem hlt)).resolve_right fun howing => ?_
    rw [hsame] at hget
    exact h.not_errs hplain (List.getElem?_eq_some_iff.mpr ⟨hlt, howing⟩) hget hwrong
  have hmodify : l.scores.modify (i + 2) (· - 1) = 1 :: 0 :: debts.set i (-1) := by
    rw [h.scores, List.modify_succ_cons, List.modify_succ_cons, List.modify_eq_set_getElem?]
    simp [hlt, hzero]
  have hcorrect : l.correct (f^[m + 1] w) =
      { words := Learner.enter l.words (f^[m + 1] w)
        scores := 1 :: 0 :: debts.set i (-1)
        table := l.table ++ [(f^[m + 1] w, l.context)]
        context := l.context
        prediction := l.prediction
        mistakes := l.mistakes + 1 } := by
    rw [Learner.correct, if_pos hboth, if_pos hboth, if_pos hwrong, h.idxOf_enter hplain, hi, hmodify]
  refine ⟨i, ?_⟩
  rw [Learner.hear, hcorrect]
  refine predict_orbiting (h.enter hplain) rfl (by simp [hlength]) ?_ rfl ?_ hr hplain ?_
    (fun hnodup => (not_nodup_of_mem hmem hnodup).elim) ?_ (by simp)
    (h.grown_of_mem hplain hmem (by simp) _) (by simp [hlength])
  · intro d hd
    rcases List.mem_or_eq_of_mem_set hd with hd | rfl
    · exact h.owed d hd
    · exact Or.inr rfl
  · intro g hg
    rcases List.mem_append.mp hg with hg | hg
    · exact h.table g hg
    · rw [List.mem_singleton.mp hg]
      exact ⟨m, rfl, hbefore⟩
  · have hbalance := h.balance
    rw [List.sum_set', dif_pos hlt, hzero, ← hlength]
    push_cast
    omega
  · intro i' v hi' hv k hk he
    rw [List.getElem?_set] at hi'
    by_cases hii : i = i'
    · rw [← hii, hget, Option.some.injEq] at hv
      refine ⟨_, List.mem_append_right _ (List.mem_singleton_self _), hv, ?_⟩
      rw [hbefore, iterate_before (by omega) (by omega) hjn (hv.trans he.symm)]
    · rw [if_neg hii] at hi'
      rw [hsame] at hv
      obtain ⟨g, hg, hh⟩ := h.settled i' v hi' hv k (by omega) he
      exact ⟨g, List.mem_append_left _ hg, hh⟩

end Known

lemma learn_orbit (bound r : ℕ) (hb : 0 < bound) (hr : 0 < r) (f : Word → Word) (w : Word) (n : ℕ)
    (hplain : ∀ v ∈ orbit f w n, v ≠ [] ∧ v ≠ interfaceToken) :
    ∃ debts, Orbiting f w n (learn bound r (orbit f w n)) debts := by
  induction n with
  | zero => exact ⟨[], initial_orbiting f w⟩
  | succ n ih =>
    obtain ⟨debts, h⟩ := ih (fun v hv => hplain v (by rw [orbit_succ]; simp [hv]))
    rw [orbit_succ, learn_concat]
    by_cases hmem : f^[n] w ∈ orbit f w n
    · obtain ⟨m, rfl⟩ : ∃ m, n = m + 1 := by
        obtain ⟨j, hj, -⟩ := mem_orbit.mp hmem
        exact ⟨n - 1, by omega⟩
      by_cases herr : (learn bound r (orbit f w (m + 1))).Errs (f^[m + 1] w)
      · obtain ⟨i, hnext⟩ := h.hear_wrong hplain hb hr hmem herr
        exact ⟨_, hnext⟩
      · exact ⟨_, h.hear_right hplain hb hr hmem herr⟩
    · exact ⟨_, h.hear_new hplain hb hr hmem⟩

lemma Orbiting.mistakes_bounds {f : Word → Word} {w : Word} {n : ℕ} {l : Learner} {debts : List ℤ}
    (h : Orbiting f w n l debts) : (orbit f w n).dedup.length ≤ l.mistakes ∧
      l.mistakes ≤ 2 * (orbit f w n).dedup.length := by
  have hsum : ∀ ds : List ℤ, (∀ d ∈ ds, d = 0 ∨ d = -1) → ds.sum ≤ 0 ∧ -(ds.length : ℤ) ≤ ds.sum := by
    intro ds hds
    induction ds with
    | nil => simp
    | cons d ds ih =>
      obtain ⟨hle, hge⟩ := ih (fun x hx => hds x (List.mem_cons_of_mem d hx))
      rw [List.sum_cons, List.length_cons]
      push_cast
      rcases hds d (by simp) with rfl | rfl
      · omega
      · omega
  have hperm : (firsts (orbit f w n)).length = (orbit f w n).dedup.length := by
    apply List.Perm.length_eq
    rw [List.perm_ext_iff_of_nodup (nodup_firsts _) (List.nodup_dedup _)]
    simp
  obtain ⟨hle, hge⟩ := hsum debts h.owed
  have hbalance := h.balance
  rw [h.length, hperm] at hge
  rw [h.length, hperm] at hbalance
  omega

lemma heard_ne_nil {calls : List Call} {v : Word} (hv : v ∈ heard calls) : v ≠ [] := by
  have hall : ∀ (calls : List Call) (s : List Word × Word), (∀ v ∈ s.1, v ≠ []) →
      ∀ v ∈ (calls.foldl listen s).1, v ≠ [] := by
    intro calls
    induction calls with
    | nil => exact fun s hs => hs
    | cons c calls ih =>
      intro s hs
      refine ih _ ?_
      cases c with
      | putc => exact hs
      | getPrediction => exact hs
      | predictionResult => exact hs
      | interface atInterface =>
        cases atInterface with
        | false => exact hs
        | true =>
          obtain ⟨ws, u⟩ := s
          by_cases hu : u = []
          · simpa [listen, hu] using hs
          · intro v hv
            rw [listen, if_neg hu] at hv
            rcases List.mem_append.mp hv with hv | hv
            · exact hs v hv
            · exact List.mem_singleton.mp hv ▸ hu
  exact hall calls ([], []) (by simp) v hv

lemma brief_of_lt {bound : UInt32} (h : bound.toNat + 1 < 2 ^ 31) (ws : List Word) :
    Brief bound ws := Brief.of_length (Nat.lt_of_le_of_lt (Nat.min_le_right _ _) h)

theorem orbit_law (pastEnd : Graph → ℕ → ℕ → ℕ) (bound : UInt32) (htwo : 2 ≤ bound.toNat)
    (hint : bound.toNat + 1 < 2 ^ 31) (predictionId : ℕ)
    (hid : (fresh bound predictionId).ct.validateId predictionId = false) (f : Word → Word) (w : Word)
    (n : ℕ) (htoken : interfaceToken ∉ orbit f w n) (calls : List Call)
    (hcalls : ∀ c ∈ calls, c.hears = true) (hheard : heard calls = orbit f w n) :
    ∃ s, Reached ⟨pastEnd, .dropped⟩ (fun _ c => c.hears = true) bound predictionId calls s ∧
      (orbit f w n).dedup.length ≤ s.1.trainingMistakes ∧
      s.1.trainingMistakes ≤ 2 * (orbit f w n).dedup.length := by
  obtain ⟨s, h⟩ := Reached.exists_of_hears pastEnd bound hid hcalls
  obtain ⟨hlearns, -⟩ := h.learns (by omega) (brief_of_lt hint _)
  have hreach : 0 < reach bound := by
    rw [reach, if_pos (by omega)]
    omega
  have hplain : ∀ v ∈ orbit f w n, v ≠ [] ∧ v ≠ interfaceToken := by
    intro v hv
    have hmem : v ∈ heard calls := hheard ▸ hv
    refine ⟨heard_ne_nil hmem, ?_⟩
    rintro rfl
    exact htoken hv
  obtain ⟨debts, horbit⟩ := learn_orbit bound.toNat (reach bound) (by omega) hreach f w n hplain
  rw [hheard] at hlearns
  have hmistakes : s.1.trainingMistakes = (learnt bound (orbit f w n)).mistakes := hlearns.mistakes
  refine ⟨s, h, ?_⟩
  rw [hmistakes]
  exact horbit.mistakes_bounds

theorem orbit_law_three : ∃ s, Reached ⟨fun _ _ _ => 0, .dropped⟩ (fun _ c => c.hears = true) 5 7
    (([[97], [98], [99], [97], [98], [99], [97]] : List Word).flatMap spell) s ∧
      3 ≤ s.1.trainingMistakes ∧ s.1.trainingMistakes ≤ 6 := by
  let f : Word → Word := fun v => if v = [97] then [98] else if v = [98] then [99] else [97]
  have horbit : orbit f [97] 7 = [[97], [98], [99], [97], [98], [99], [97]] := by decide
  have hheard : heard (([[97], [98], [99], [97], [98], [99], [97]] : List Word).flatMap spell) =
      orbit f [97] 7 := by
    rw [horbit]
    exact heard_spell (by simp)
  have hthree : (orbit f [97] 7).dedup.length = 3 := by
    rw [horbit]
    decide
  obtain ⟨s, h, hlow, hhigh⟩ := orbit_law (fun _ _ _ => 0) 5 (by decide) (by decide) 7 (by decide) f
    [97] 7 (by rw [horbit]; decide) _ spell_hears hheard
  rw [hthree] at hlow hhigh
  exact ⟨s, h, hlow, hhigh⟩

end WordModel.BoundedCTModel
