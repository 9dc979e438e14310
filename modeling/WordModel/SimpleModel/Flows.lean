import WordModel.Library.Margins
import WordModel.SimpleModel.Parser
import Mathlib.Data.UInt

/-! A word comes in as often as it goes out: its count is the sum of its row of pair counts, and
of its column, but for the first word and the last. -/

namespace WordModel.Parser

open Checked Margins

def inflow (p : Parser) (i : ℕ) : UInt32 :=
  ((List.range p.wordNumber).map (fun j => p.countPairAt j i)).sum

def outflow (p : Parser) (i : ℕ) : UInt32 :=
  ((List.range p.wordNumber).map (fun j => p.countPairAt i j)).sum

lemma sum_ofNat (f : ℕ → ℕ) (js : List ℕ) :
    (js.map (fun j => UInt32.ofNat (f j))).sum = UInt32.ofNat (js.map f).sum := by
  induction js with
  | nil => rfl
  | cons j js ih => rw [List.map_cons, List.sum_cons, ih, List.map_cons, List.sum_cons, UInt32.ofNat_add]

lemma pairs_snd (index : Word → ℕ) (calls : List Call) :
    (pairs index calls).map Prod.snd = calls.map (fun c => index c.word) := by
  induction calls using List.reverseRecOn with
  | nil => rfl
  | append_singleton calls c ih =>
    rw [pairs_concat, List.map_append, ih, List.map_append]
    rfl

lemma pairs_fst (index : Word → ℕ) {calls : List Call}
    (hadds : ∀ c ∈ calls, ∃ word, c = .addWord word) :
    (pairs index calls).map Prod.fst ++ [lastAdded index calls] =
      0 :: calls.map (fun c => index c.word) := by
  induction calls using List.reverseRecOn with
  | nil => rfl
  | append_singleton calls c ih =>
    obtain ⟨word, rfl⟩ := hadds c (by simp)
    rw [pairs_concat, lastAdded_concat, List.map_append, List.map_singleton, List.map_append,
      ← List.cons_append, ← ih fun d hd => hadds d (by simp [hd])]
    rfl

section

variable {calls : List Call} {p : Parser} (h : p.Tallied calls)

include h

lemma Tallied.pairs_lt {q : ℕ × ℕ} (hq : q ∈ pairs p.index calls) :
    q.1 < p.wordNumber ∧ q.2 < p.wordNumber := by
  have hfollows : q.2 ∈ p.nonzeroPairs.getD q.1 [] := by
    rw [h.nonzeroPairs, ← List.count_pos_iff, count_followers]
    exact List.count_pos_iff.mpr hq
  refine ⟨?_, h.follower_lt hfollows⟩
  rw [← h.numbered.nonzeroPairs_length]
  by_contra hge
  rw [List.getD_eq_default _ _ (not_lt.mp hge)] at hfollows
  cases hfollows

lemma Tallied.index_nil : p.index [] = 0 := h.numbered.index_eq h.first

lemma Tallied.count_indices {w : Word} {i : ℕ} (hw : p.words[i]? = some w) :
    ((0 :: calls.map (fun c => p.index c.word)).count i) =
      ([] :: calls.map Call.word).count w := by
  have hindices : 0 :: calls.map (fun c => p.index c.word) =
      ([] :: calls.map Call.word).map p.index := by
    rw [List.map_cons, List.map_map, h.index_nil]
    rfl
  rw [hindices, List.count, List.countP_map, List.count]
  apply List.countP_congr
  intro v hv
  have hmem : v ∈ p.words := (h.known v).mpr (List.mem_cons.mp hv)
  have hget := (h.numbered.lookup v _).mp (h.numbered.lookup_index hmem)
  simp only [Function.comp_apply, beq_iff_eq]
  constructor
  · intro he
    rw [he, hw] at hget
    exact (Option.some.inj hget).symm
  · rintro rfl
    exact h.numbered.index_eq hw

lemma Tallied.countAt_eq {i : ℕ} (hi : i < p.wordNumber) : p.countAt i =
    .ok (UInt32.ofNat ((0 :: calls.map (fun c => p.index c.word)).count i)) := by
  rw [← h.numbered.words_length] at hi
  have hw := List.getElem?_eq_getElem hi
  have hcount := h.count p.words[i]
  rw [Parser.count, getIndex, (h.numbered.lookup _ _).mpr hw] at hcount
  rw [h.count_indices hw]
  exact hcount

lemma Tallied.inflow_eq (i : ℕ) :
    p.inflow i = UInt32.ofNat ((calls.map (fun c => p.index c.word)).count i) := by
  rw [inflow]
  simp only [h.pairCounts]
  rw [sum_ofNat, sum_count_fst fun q hq => (h.pairs_lt hq).1, pairs_snd]

end

theorem flows_law (lastIndex : ℕ) (calls : List Call) (p : Parser)
    (h : Reached lastIndex calls p) (i : ℕ) (hi : i < p.wordNumber) :
    p.countAt i = .ok (p.inflow i + if i = 0 then 1 else 0) ∧
    ((∀ c ∈ calls, ∃ word, c = .addWord word) →
      p.countAt i = .ok (p.outflow i + if i = p.lastIndex then 1 else 0)) := by
  have ht := h.tallied
  rw [ht.countAt_eq hi]
  refine ⟨?_, fun hadds => ?_⟩
  · rw [ht.inflow_eq, List.count_cons, UInt32.ofNat_add]
    congr 2
    by_cases hzero : i = 0
    · simp [hzero]
    · simp [hzero, Ne.symm hzero]
  · rw [← pairs_fst p.index hadds, ← ht.lastIndex, List.count_append, UInt32.ofNat_add, outflow]
    simp only [ht.pairCounts]
    rw [sum_ofNat, sum_count_snd fun q hq => (ht.pairs_lt hq).2, List.count_singleton]
    congr 2
    by_cases hlast : i = p.lastIndex
    · simp [hlast]
    · simp [hlast, Ne.symm hlast]

theorem flows_law_three : ∃ p, Reached 5 [.addWord [97], .addWord [98], .addWord [97]] p ∧
    p.countAt 1 = .ok (p.outflow 1 + if 1 = p.lastIndex then 1 else 0) := by
  have hne (c : UInt8) : [c] ≠ [] := List.cons_ne_nil c []
  have h : Reached 5 [.addWord [97], .addWord [98], .addWord [97]] (_ : Parser) :=
    ⟨_, rfl, .cons (hne 97) rfl (.cons (hne 98) rfl (.cons (hne 97) rfl .nil))⟩
  exact ⟨_, h, (flows_law _ _ _ h 1 (by decide)).2 (by simp)⟩

end WordModel.Parser
