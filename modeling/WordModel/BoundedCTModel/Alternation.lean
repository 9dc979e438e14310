import Mathlib.Tactic.IntervalCases
import WordModel.BoundedCTModel.Learner

/-! Two words in turn: after four mistakes each is predicted for ever, while the contexts
reach at all. -/

namespace WordModel.BoundedCTModel

open Checked ContextTree Follow Least Learner

structure Settled (r : ℕ) (l : Learner) (a b : Word) : Prop where
  first : a ∈ l.words
  second : b ∈ l.words
  complete : l.words.length ≤ l.scores.length
  afterFirst : ∀ c, ({ l with context := a :: c }.predict r).prediction = l.words.idxOf b
  afterSecond : ∀ c, ({ l with context := b :: c }.predict r).prediction = l.words.idxOf a

lemma Settled.symm {r : ℕ} {l : Learner} {a b : Word} (h : Settled r l a b) : Settled r l b a :=
  ⟨h.second, h.first, h.complete, h.afterSecond, h.afterFirst⟩

lemma Settled.hear {bound r : ℕ} {l : Learner} {a b : Word} (h : Settled r l a b)
    (hpos : 0 < bound) (hok : ¬ l.Errs a) :
    Settled r (l.hear bound r a) a b ∧ ¬ (l.hear bound r a).Errs b ∧
      (l.hear bound r a).mistakes = l.mistakes := by
  obtain ⟨k, rfl⟩ := Nat.exists_eq_succ_of_ne_zero (Nat.ne_of_gt hpos)
  have henter : enter l.words a = l.words := if_pos h.first
  have hcorrect : l.correct a = l := by
    rw [Learner.correct, henter, if_neg (fun hh => hok hh.2), if_neg (fun hh => hok hh.2),
      if_neg hok]
  have hprediction := h.afterFirst (l.context.take k)
  have hgrown : growRootWeights l.mistakes (l.words.length - l.scores.length) l.scores =
      l.scores := by
    rw [Nat.sub_eq_zero_of_le h.complete]
    rfl
  have hhear : l.hear (k + 1) r a = { l with
      context := a :: l.context.take k
      prediction := l.words.idxOf b } := by
    rw [Learner.hear, hcorrect, List.take_succ_cons, ← hprediction]
    simp only [Learner.predict, hgrown]
  rw [hhear]
  refine ⟨⟨h.first, h.second, h.complete, h.afterFirst, h.afterSecond⟩, ?_, rfl⟩
  rw [Errs, enter, if_pos h.second]
  exact fun hne => hne rfl

lemma Learner.mistakes_le (bound r : ℕ) (l : Learner) (w : Word) :
    l.mistakes ≤ (l.hear bound r w).mistakes := by
  rw [Learner.hear, Learner.predict]
  dsimp only [Learner.correct]
  split
  · exact Nat.le_succ _
  · exact Nat.le_refl _

def due (a b : Word) (n : ℕ) : Word := if n % 2 = 0 then a else b

def alternation (a b : Word) (n : ℕ) : List Word := (List.range n).map (due a b)

lemma alternation_succ (a b : Word) (n : ℕ) :
    alternation a b (n + 1) = alternation a b n ++ [due a b n] := by
  rw [alternation, List.range_succ, List.map_append]
  rfl

@[simp] lemma alternation_length (a b : Word) (n : ℕ) : (alternation a b n).length = n := by
  simp [alternation]

lemma mem_alternation {a b w : Word} {n : ℕ} (h : w ∈ alternation a b n) : w = a ∨ w = b := by
  obtain ⟨k, _, rfl⟩ := List.mem_map.mp h
  rw [due]
  split
  · exact Or.inl rfl
  · exact Or.inr rfl

lemma alternation_take (a b : Word) {k n : ℕ} (h : k ≤ n) :
    (alternation a b n).take k = alternation a b k := by
  rw [alternation, ← List.map_take, List.take_range, Nat.min_eq_left h]
  rfl

lemma learn_alternation_succ (bound r : ℕ) (a b : Word) (n : ℕ) :
    learn bound r (alternation a b (n + 1)) =
      (learn bound r (alternation a b n)).hear bound r (due a b n) := by
  rw [alternation_succ, learn_concat]

lemma mistakes_mono (bound r : ℕ) (a b : Word) {n k : ℕ} (h : n ≤ k) :
    (learn bound r (alternation a b n)).mistakes ≤ (learn bound r (alternation a b k)).mistakes := by
  induction k, h using Nat.le_induction with
  | base => exact Nat.le_refl _
  | succ k _ ih =>
    rw [learn_alternation_succ]
    exact ih.trans (mistakes_le _ _ _ _)

lemma due_succ (a b : Word) (n : ℕ) : due a b (n + 1) = due b a n := by
  rw [due, due]
  rcases Nat.mod_two_eq_zero_or_one n with h | h
  · rw [if_neg (by omega), if_pos h]
  · rw [if_pos (by omega), if_neg (by omega)]

lemma Settled.lasts {bound r : ℕ} {a b : Word} (hpos : 0 < bound) {k : ℕ}
    (h : Settled r (learn bound r (alternation a b k)) (due a b k) (due a b (k + 1)))
    (hok : ¬ (learn bound r (alternation a b k)).Errs (due a b k)) {n : ℕ} (hn : k ≤ n) :
    Settled r (learn bound r (alternation a b n)) (due a b n) (due a b (n + 1)) ∧
      ¬ (learn bound r (alternation a b n)).Errs (due a b n) ∧
      (learn bound r (alternation a b n)).mistakes =
        (learn bound r (alternation a b k)).mistakes := by
  induction n, hn using Nat.le_induction with
  | base => exact ⟨h, hok, rfl⟩
  | succ n _ ih =>
    obtain ⟨hs, hno, heq⟩ := ih
    obtain ⟨hs', hno', heq'⟩ := hs.hear hpos hno
    have htwo : due a b (n + 1 + 1) = due a b n := by rw [due_succ, due_succ]
    rw [learn_alternation_succ, htwo]
    exact ⟨hs'.symm, hno', heq'.trans heq⟩

lemma nil_ne_interfaceToken : ([] : Word) ≠ interfaceToken := interfaceToken_ne_nil.symm

-- enough to run a learner whose words are told apart
attribute [local simp] Learner.hear Learner.correct Learner.predict enter Errs Learner.total
  scan List.range_succ growRootWeights support_cons shared_of_ne due interfaceToken_ne_nil
  nil_ne_interfaceToken

lemma strangers_four {a b : Word} (ha : a ≠ []) (hb : b ≠ []) (hab : a ≠ b)
    (hai : a ≠ interfaceToken) (hbi : b ≠ interfaceToken) (q r : ℕ) :
    learn (q + 2) r (alternation a b 4) =
      ⟨[[], interfaceToken, a, b], [1, 0, -1, -1],
        [(b, [a]), (a, [b, a]), (b, a :: b :: [a].take q)],
        b :: a :: (b :: [a].take q).take q, 2, 4⟩ := by
  have h₁ : initial.hear (q + 2) r a = ⟨[[], interfaceToken, a], [1, 0, 0], [], [a], 1, 1⟩ := by
    simp [initial, ha, hai]
  have h₂ : (Learner.mk [[], interfaceToken, a] [1, 0, 0] [] [a] 1 1).hear (q + 2) r b =
      ⟨[[], interfaceToken, a, b], [1, 0, 0, 0], [(b, [a])], [b, a], 1, 2⟩ := by
    simp [hab, hb, hbi, hab.symm, hb.symm, hbi.symm]
  have h₃ : (Learner.mk [[], interfaceToken, a, b] [1, 0, 0, 0] [(b, [a])] [b, a] 1 2).hear
      (q + 2) r a = ⟨[[], interfaceToken, a, b], [1, 0, -1, 0], [(b, [a]), (a, [b, a])],
        a :: b :: [a].take q, 2, 3⟩ := by
    -- the two scores tie at worst, and the first word comes first
    have htie : ¬ 1 < shared r [a] (a :: b :: [a].take q) := not_lt.mpr (shared_le r [a] _)
    simp [hab, hb, hbi, hab.symm, ha.symm, hai.symm, htie]
  have h₄ : (Learner.mk [[], interfaceToken, a, b] [1, 0, -1, 0] [(b, [a]), (a, [b, a])]
      (a :: b :: [a].take q) 2 3).hear (q + 2) r b =
        ⟨[[], interfaceToken, a, b], [1, 0, -1, -1],
          [(b, [a]), (a, [b, a]), (b, a :: b :: [a].take q)],
          b :: a :: (b :: [a].take q).take q, 2, 4⟩ := by
    have hneg (s : ℕ) : -1 - (s : ℤ) < 0 := by omega
    have hnot (s : ℕ) : ¬ (s : ℤ) < 0 := by omega
    simp [ha, hai, hab, hb, hbi, hab.symm, hb.symm, hbi.symm, hneg, hnot]
  rw [← h₄, ← h₃, ← h₂, ← h₁]
  rfl

lemma strangers_settled {a b : Word} (ha : a ≠ []) (hb : b ≠ []) (hab : a ≠ b)
    (hai : a ≠ interfaceToken) (hbi : b ≠ interfaceToken) (r : ℕ) (g c : List Word) :
    Settled (r + 1) ⟨[[], interfaceToken, a, b], [1, 0, -1, -1],
      [(b, [a]), (a, [b, a]), (b, a :: g)], c, 2, 4⟩ a b := by
  refine ⟨by simp, by simp, by simp, fun c => ?_, fun c => ?_⟩
  · have hlt (s : ℕ) : -1 - (1 + ((s : ℤ) + 1)) < -1 := by omega
    simp [hb, hab, hbi, hb.symm, hbi.symm, hab.symm, hlt]
  · have hlt (s : ℕ) : -1 - ((s : ℤ) + 1) < 0 := by omega
    have hnot (s : ℕ) : ¬ -1 < -1 - ((s : ℤ) + 1) := by omega
    simp [ha, hab, hai, ha.symm, hai.symm, hlt, hnot]

lemma strangers_unreached {a b : Word} (ha : a ≠ []) (hb : b ≠ []) (hab : a ≠ b)
    (hai : a ≠ interfaceToken) (hbi : b ≠ interfaceToken) (q : ℕ) :
    (learn (q + 2) 0 (alternation a b 5)).mistakes = 4 ∧
      (learn (q + 2) 0 (alternation a b 6)).mistakes = 5 := by
  have h₅ (table : List (Word × List Word)) (c : List Word) :
      (Learner.mk [[], interfaceToken, a, b] [1, 0, -1, -1] table c 2 4).hear (q + 2) 0 a =
        ⟨[[], interfaceToken, a, b], [1, 0, -1, -1], table, a :: c.take (q + 1), 2, 4⟩ := by
    simp [ha, hab, hai, ha.symm, hai.symm]
  obtain ⟨table, c, hfive⟩ : ∃ table c, learn (q + 2) 0 (alternation a b 5) =
      ⟨[[], interfaceToken, a, b], [1, 0, -1, -1], table, a :: c, 2, 4⟩ := by
    rw [learn_alternation_succ, strangers_four ha hb hab hai hbi]
    exact ⟨_, _, h₅ _ _⟩
  rw [learn_alternation_succ _ _ _ _ 5, hfive]
  refine ⟨rfl, ?_⟩
  simp [hb, hab, hbi, hb.symm, hbi.symm, hab.symm]

lemma left_four {b : Word} (hb : b ≠ []) (hbi : b ≠ interfaceToken) (q r : ℕ) :
    learn (q + 2) r (alternation interfaceToken b 4) =
      ⟨[[], interfaceToken, b], [1, 0, 0],
        [(b, [interfaceToken]), (b, interfaceToken :: b :: [interfaceToken].take q)],
        b :: interfaceToken :: (b :: [interfaceToken].take q).take q, 1, 3⟩ := by
  have h₁ : initial.hear (q + 2) r interfaceToken =
      ⟨[[], interfaceToken], [1, 0], [], [interfaceToken], 1, 1⟩ := by
    simp [initial]
  have h₂ : (Learner.mk [[], interfaceToken] [1, 0] [] [interfaceToken] 1 1).hear (q + 2) r b =
      ⟨[[], interfaceToken, b], [1, 0, 1], [(b, [interfaceToken])], [b, interfaceToken], 1, 2⟩ := by
    simp [hb, hbi, hb.symm, hbi.symm]
  have h₃ : (Learner.mk [[], interfaceToken, b] [1, 0, 1] [(b, [interfaceToken])]
      [b, interfaceToken] 1 2).hear (q + 2) r interfaceToken =
        ⟨[[], interfaceToken, b], [1, 0, 1], [(b, [interfaceToken])],
          interfaceToken :: b :: [interfaceToken].take q, 1, 2⟩ := by
    have htie : ¬ 1 < shared r [interfaceToken] (interfaceToken :: b :: [interfaceToken].take q) :=
      not_lt.mpr (shared_le r [interfaceToken] _)
    simp [hb, hbi, htie]
  have h₄ : (Learner.mk [[], interfaceToken, b] [1, 0, 1] [(b, [interfaceToken])]
      (interfaceToken :: b :: [interfaceToken].take q) 1 2).hear (q + 2) r b =
        ⟨[[], interfaceToken, b], [1, 0, 0],
          [(b, [interfaceToken]), (b, interfaceToken :: b :: [interfaceToken].take q)],
          b :: interfaceToken :: (b :: [interfaceToken].take q).take q, 1, 3⟩ := by
    simp [hb, hbi, hb.symm, hbi.symm]
  rw [← h₄, ← h₃, ← h₂, ← h₁]
  rfl

lemma left_settled {b : Word} (hb : b ≠ []) (hbi : b ≠ interfaceToken) (r : ℕ)
    (g c : List Word) :
    Settled (r + 1) ⟨[[], interfaceToken, b], [1, 0, 0],
      [(b, [interfaceToken]), (b, interfaceToken :: g)], c, 1, 3⟩ interfaceToken b := by
  refine ⟨by simp, by simp, by simp, fun c => ?_, fun c => ?_⟩
  · have hlt (s : ℕ) : -1 < 1 + (s : ℤ) := by omega
    simp [hb, hbi, hb.symm, hbi.symm, hlt]
  · simp [hbi.symm]

lemma left_unreached {b : Word} (hb : b ≠ []) (hbi : b ≠ interfaceToken) (q : ℕ) :
    (learn (q + 2) 0 (alternation interfaceToken b 6)).mistakes = 4 ∧
      (learn (q + 2) 0 (alternation interfaceToken b 7)).mistakes = 5 := by
  have h₅ (table : List (Word × List Word)) (c : List Word) :
      (Learner.mk [[], interfaceToken, b] [1, 0, 0] table c 1 3).hear (q + 2) 0 interfaceToken =
        ⟨[[], interfaceToken, b], [1, 0, 0], table, interfaceToken :: c.take (q + 1), 1, 3⟩ := by
    simp [hbi.symm]
  have h₆ (table : List (Word × List Word)) (c : List Word) :
      (Learner.mk [[], interfaceToken, b] [1, 0, 0] table (interfaceToken :: c) 1 3).hear
        (q + 2) 0 b = ⟨[[], interfaceToken, b], [1, 0, -1],
          table ++ [(b, interfaceToken :: c)], b :: interfaceToken :: c.take q, 2, 4⟩ := by
    simp [hb, hbi, hb.symm, hbi.symm]
  obtain ⟨table, c, hfive⟩ : ∃ table c, learn (q + 2) 0 (alternation interfaceToken b 5) =
      ⟨[[], interfaceToken, b], [1, 0, 0], table, interfaceToken :: c, 1, 3⟩ := by
    rw [learn_alternation_succ, left_four hb hbi]
    exact ⟨_, _, h₅ _ _⟩
  obtain ⟨table, c, hsix⟩ : ∃ table c, learn (q + 2) 0 (alternation interfaceToken b 6) =
      ⟨[[], interfaceToken, b], [1, 0, -1], table, b :: c, 2, 4⟩ := by
    rw [learn_alternation_succ, hfive]
    exact ⟨_, _, h₆ _ _⟩
  rw [learn_alternation_succ _ _ _ _ 6, hsix]
  refine ⟨rfl, ?_⟩
  simp [hbi.symm]

lemma right_three {a : Word} (ha : a ≠ []) (hai : a ≠ interfaceToken) (q r : ℕ) :
    learn (q + 2) r (alternation a interfaceToken 3) =
      ⟨[[], interfaceToken, a], [1, 0, -1], [(a, [interfaceToken, a])],
        a :: interfaceToken :: [a].take q, 2, 2⟩ := by
  have h₁ : initial.hear (q + 2) r a = ⟨[[], interfaceToken, a], [1, 0, 0], [], [a], 1, 1⟩ := by
    simp [initial, ha, hai]
  have h₂ : (Learner.mk [[], interfaceToken, a] [1, 0, 0] [] [a] 1 1).hear (q + 2) r
      interfaceToken = ⟨[[], interfaceToken, a], [1, 0, 0], [], [interfaceToken, a], 1, 1⟩ := by
    simp
  have h₃ : (Learner.mk [[], interfaceToken, a] [1, 0, 0] [] [interfaceToken, a] 1 1).hear
      (q + 2) r a = ⟨[[], interfaceToken, a], [1, 0, -1], [(a, [interfaceToken, a])],
        a :: interfaceToken :: [a].take q, 2, 2⟩ := by
    simp [ha, hai, ha.symm, hai.symm]
  rw [← h₃, ← h₂, ← h₁]
  rfl

lemma right_four {a : Word} (ha : a ≠ []) (hai : a ≠ interfaceToken) (q r : ℕ) :
    learn (q + 2) (r + 1) (alternation a interfaceToken 4) =
      ⟨[[], interfaceToken, a], [1, -1, -1],
        [(a, [interfaceToken, a]), (interfaceToken, a :: interfaceToken :: [a].take q)],
        interfaceToken :: a :: (interfaceToken :: [a].take q).take q, 2, 3⟩ := by
  have hlt (s : ℕ) : -1 - ((s : ℤ) + 1) < -1 := by omega
  rw [learn_alternation_succ, right_three ha hai]
  generalize [a].take q = rest
  simp [ha, hai, hai.symm, hlt]

lemma right_settled {a : Word} (ha : a ≠ []) (hai : a ≠ interfaceToken) (r : ℕ)
    (g c : List Word) :
    Settled (r + 1) ⟨[[], interfaceToken, a], [1, -1, -1],
      [(a, [interfaceToken, a]), (interfaceToken, a :: g)], c, 2, 3⟩ a interfaceToken := by
  refine ⟨by simp, by simp, by simp, fun c => ?_, fun c => ?_⟩
  · have hlt (s : ℕ) : -1 - ((s : ℤ) + 1) < 1 := by omega
    have hnot (s : ℕ) : ¬ -1 < -1 - ((s : ℤ) + 1) := by omega
    simp [hai.symm, hlt, hnot]
  · have hlt (s : ℕ) : -1 - ((s : ℤ) + 1) < -1 := by omega
    simp [ha, hai, ha.symm, hai.symm, hlt]

lemma right_unreached {a : Word} (ha : a ≠ []) (hai : a ≠ interfaceToken) (q : ℕ) :
    (learn (q + 2) 0 (alternation a interfaceToken 5)).mistakes = 4 ∧
      (learn (q + 2) 0 (alternation a interfaceToken 6)).mistakes = 5 := by
  have h₄ (table : List (Word × List Word)) (c : List Word) :
      (Learner.mk [[], interfaceToken, a] [1, 0, -1] table (a :: c) 2 2).hear (q + 2) 0
        interfaceToken = ⟨[[], interfaceToken, a], [1, -1, -1],
          table ++ [(interfaceToken, a :: c)], interfaceToken :: a :: c.take q, 1, 3⟩ := by
    simp [hai.symm]
  have h₅ (table : List (Word × List Word)) (c : List Word) :
      (Learner.mk [[], interfaceToken, a] [1, -1, -1] table (interfaceToken :: c) 1 3).hear
        (q + 2) 0 a = ⟨[[], interfaceToken, a], [1, -1, -2],
          table ++ [(a, interfaceToken :: c)], a :: interfaceToken :: c.take q, 2, 4⟩ := by
    simp [ha, hai, ha.symm, hai.symm]
  obtain ⟨table, c, hfour⟩ : ∃ table c, learn (q + 2) 0 (alternation a interfaceToken 4) =
      ⟨[[], interfaceToken, a], [1, -1, -1], table, interfaceToken :: c, 1, 3⟩ := by
    rw [learn_alternation_succ, right_three ha hai]
    exact ⟨_, _, h₄ _ _⟩
  obtain ⟨table, c, hfive⟩ : ∃ table c, learn (q + 2) 0 (alternation a interfaceToken 5) =
      ⟨[[], interfaceToken, a], [1, -1, -2], table, a :: c, 2, 4⟩ := by
    rw [learn_alternation_succ, hfour]
    exact ⟨_, _, h₅ _ _⟩
  rw [learn_alternation_succ _ _ _ _ 5, hfive]
  refine ⟨rfl, ?_⟩
  simp [hai.symm]

lemma settled_four {a b : Word} (ha : a ≠ []) (hb : b ≠ []) (hab : a ≠ b) (q r : ℕ) :
    Settled (r + 1) (learn (q + 2) (r + 1) (alternation a b 4)) a b ∧
      ¬ (learn (q + 2) (r + 1) (alternation a b 4)).Errs a ∧
      (learn (q + 2) (r + 1) (alternation a b 4)).mistakes ≤ 4 := by
  by_cases hai : a = interfaceToken
  · subst hai
    rw [left_four hb hab.symm]
    refine ⟨left_settled hb hab.symm r _ _, ?_, Nat.le_succ 3⟩
    simp
  · by_cases hbi : b = interfaceToken
    · subst hbi
      rw [right_four ha hai]
      refine ⟨right_settled ha hai r _ _, ?_, Nat.le_succ 3⟩
      simp [ha.symm, Ne.symm hai]
    · rw [strangers_four ha hb hab hai hbi]
      refine ⟨strangers_settled ha hb hab hai hbi r _ _, ?_, Nat.le_refl 4⟩
      simp [ha.symm, Ne.symm hai]

lemma reached_mistakes {a b : Word} (ha : a ≠ []) (hb : b ≠ []) (hab : a ≠ b) (q r n : ℕ) :
    (learn (q + 2) (r + 1) (alternation a b n)).mistakes ≤ 4 ∧
      (4 ≤ n → ¬ (learn (q + 2) (r + 1) (alternation a b n)).Errs (due a b n)) := by
  obtain ⟨hsettled, hok, hfour⟩ := settled_four ha hb hab q r
  by_cases hn : 4 ≤ n
  · obtain ⟨_, hno, heq⟩ := hsettled.lasts (Nat.succ_pos _) (k := 4) hok hn
    exact ⟨heq.trans_le hfour, fun _ => hno⟩
  · exact ⟨(mistakes_mono _ _ a b (by omega)).trans hfour, fun hh => (hn hh).elim⟩

lemma unreached_mistakes {a b : Word} (ha : a ≠ []) (hb : b ≠ []) (hab : a ≠ b) (q n : ℕ) :
    (learn (q + 2) 0 (alternation a b n)).mistakes ≤ 4 ↔
      n ≤ 5 ∨ n = 6 ∧ a = interfaceToken := by
  -- the mistakes only ever grow, so one count before the fifth and one at it decide
  have hbetween {k : ℕ} (hlow : (learn (q + 2) 0 (alternation a b k)).mistakes = 4)
      (hhigh : (learn (q + 2) 0 (alternation a b (k + 1))).mistakes = 5) :
      (learn (q + 2) 0 (alternation a b n)).mistakes ≤ 4 ↔ n ≤ k := by
    by_cases hn : n ≤ k
    · have hle := mistakes_mono (q + 2) 0 a b hn
      exact iff_of_true (by omega) hn
    · have hle := mistakes_mono (q + 2) 0 a b (show k + 1 ≤ n by omega)
      exact iff_of_false (by omega) hn
  by_cases hai : a = interfaceToken
  · subst hai
    obtain ⟨hsix, hseven⟩ := left_unreached hb hab.symm q
    rw [hbetween hsix hseven]
    simp only [and_true]
    omega
  · rw [or_iff_left (fun hh : n = 6 ∧ a = interfaceToken => hai hh.2)]
    by_cases hbi : b = interfaceToken
    · subst hbi
      obtain ⟨hfive, hsix⟩ := right_unreached ha hai q
      exact hbetween hfive hsix
    · obtain ⟨hfive, hsix⟩ := strangers_unreached ha hb hab hai hbi q
      exact hbetween hfive hsix

lemma alternation_brief {a b : Word} (ha : a ≠ []) (hb : b ≠ []) (hab : a ≠ b) {bound : UInt32}
    (hbound : 2 ≤ bound.toNat) (n : ℕ) : Brief bound (alternation a b n) := by
  intro hsmall us w hprefix herrs
  have htake := List.prefix_iff_eq_take.mp hprefix
  have hle := hprefix.length_le
  rw [alternation_length] at hle
  rw [alternation_take a b hle, List.length_append, List.length_singleton, alternation_succ]
    at htake
  obtain ⟨hus, hw⟩ := List.append_inj' htake rfl
  by_contra hlong
  obtain ⟨q, hq⟩ := Nat.exists_eq_add_of_le' hbound
  have hreach : reach bound = q + 1 := by
    rw [reach, if_pos hsmall]
    omega
  rw [learnt, hreach, hq, hus, List.cons.inj hw |>.1] at herrs
  exact (reached_mistakes ha hb hab q q us.length).2 (by omega) herrs

theorem alternation_law (pastEnd : Graph → ℕ → ℕ → ℕ) (bound : UInt32) (hbound : 2 ≤ bound.toNat)
    (predictionId : ℕ) (hid : (fresh bound predictionId).ct.validateId predictionId = false)
    (a b : Word) (ha : a ≠ []) (hb : b ≠ []) (hab : a ≠ b) (n : ℕ) (calls : List Call)
    (hcalls : ∀ c ∈ calls, c.hears = true) (hheard : heard calls = alternation a b n) :
    ∃ s, Reached ⟨pastEnd, .dropped⟩ (fun _ c => c.hears = true) bound predictionId calls s ∧
      s.2.map (·.word) = alternation a b n ∧
      (s.1.trainingMistakes ≤ 4 ↔
        bound.toNat < 2 ^ 31 ∨ n ≤ 5 ∨ n = 6 ∧ a = interfaceToken) ∧
      (bound.toNat < 2 ^ 31 → ∀ (k : ℕ) (e : Commit), 4 ≤ k → s.2[k]? = some e →
        e.mistaken = false) := by
  obtain ⟨s, h⟩ := Reached.exists_of_hears pastEnd bound hid hcalls
  obtain ⟨hlearns, hjudged⟩ :=
    h.learns (by omega) (hheard ▸ alternation_brief ha hb hab hbound n)
  have hwords := h.heard.trans hheard
  rw [hheard] at hlearns
  have hmistakes : s.1.trainingMistakes = (learnt bound (alternation a b n)).mistakes :=
    hlearns.mistakes
  obtain ⟨q, hq⟩ := Nat.exists_eq_add_of_le' hbound
  have hreach (hsmall : bound.toNat < 2 ^ 31) : reach bound = q + 1 := by
    rw [reach, if_pos hsmall]
    omega
  refine ⟨s, h, hwords, ?_, fun hsmall k e hk hget => ?_⟩
  · rw [hmistakes, learnt, hq]
    by_cases hsmall : bound.toNat < 2 ^ 31
    · rw [hreach hsmall]
      exact iff_of_true (reached_mistakes ha hb hab q q n).1 (Or.inl (hq ▸ hsmall))
    · rw [reach, if_neg hsmall, unreached_mistakes ha hb hab]
      exact (or_iff_right (hq ▸ hsmall)).symm
  · have hlt : k < n := by
      have hlen := congrArg List.length hwords
      rw [List.length_map, alternation_length] at hlen
      have := (List.getElem?_eq_some_iff.mp hget).1
      omega
    have hword : e.word = due a b k := by
      have hnth := congrArg (fun ws : List Word => ws[k]?) hwords
      simpa [hget, alternation, hlt] using hnth
    have hwrong := hjudged k e hget
    rw [List.map_take, hwords, alternation_take a b (Nat.le_of_lt hlt), hword, learnt,
      hreach hsmall, hq] at hwrong
    rw [← Bool.not_eq_true, hwrong]
    exact (reached_mistakes ha hb hab q q k).2 hk

theorem alternation_law_hundred : ∃ s,
    Reached ⟨fun _ _ _ => 0, .dropped⟩ (fun _ c => c.hears = true) 5 7
      ((alternation [48] [49] 100).flatMap spell) s ∧ s.1.trainingMistakes ≤ 4 := by
  have hheard : heard ((alternation [48] [49] 100).flatMap spell) = alternation [48] [49] 100 := by
    apply heard_spell
    intro w hw
    rcases mem_alternation hw with rfl | rfl
    · simp
    · simp
  obtain ⟨s, h, _, hiff, _⟩ := alternation_law (fun _ _ _ => 0) 5 (by decide) 7 (by decide) [48] [49]
    (by decide) (by decide) (by decide) 100 _ spell_hears hheard
  exact ⟨s, h, hiff.mpr (Or.inl (by decide))⟩

theorem alternation_law_fails : ¬ ∀ (bound : UInt32) (predictionId : ℕ) (a b : Word) (n : ℕ)
    (s : BoundedCTModel × List Commit), 2 ≤ bound.toNat →
    (fresh bound predictionId).ct.validateId predictionId = false → a ≠ [] → b ≠ [] → a ≠ b →
    Reached ⟨fun _ _ _ => 0, .dropped⟩ (fun _ c => c.hears = true) bound predictionId
      ((alternation a b n).flatMap spell) s →
    s.1.trainingMistakes ≤ 4 := by
  intro h
  have hrun : Reached ⟨fun _ _ _ => 0, .dropped⟩ (fun _ c => c.hears = true) 2147483648 7
      [.putc 97, .interface true, .putc 98, .interface true, .putc 97, .interface true,
        .putc 98, .interface true, .putc 97, .interface true, .putc 98, .interface true] _ :=
    .cons rfl rfl (.cons rfl rfl (.cons rfl rfl (.cons rfl rfl (.cons rfl rfl (.cons rfl rfl
      (.cons rfl rfl (.cons rfl rfl (.cons rfl rfl (.cons rfl rfl (.cons rfl rfl
      (.cons rfl rfl .nil)))))))))))
  have hle := h 2147483648 7 [97] [98] 6 _ (by decide) (by decide) (by decide) (by decide)
    (by decide) hrun
  exact absurd hle (by decide)

end WordModel.BoundedCTModel
