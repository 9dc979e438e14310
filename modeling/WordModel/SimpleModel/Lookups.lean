import WordModel.SimpleModel.Parser

/-! The two lookups of a parser, each with the variable that it writes to. -/

namespace WordModel

open Checked

namespace Parser

def getIndexInto (p : Parser) (word : Word) (index : ℕ) : Bool × ℕ :=
  match p.wordMap.lookup word with
  | none => (false, index)
  | some i => (true, i)

def getWordInto (p : Parser) (index : ℕ) (word : Word) : Exec Container (Bool × Word) :=
  if p.wordNumber < index then .ok (false, word)
  else do
    let w ← fetch .words p.words index
    return (true, w)

lemma getIndexInto_eq (p : Parser) (word : Word) (index : ℕ) :
    p.getIndexInto word index = ((p.getIndex word).isSome, (p.getIndex word).getD index) := by
  rw [getIndexInto, getIndex]
  cases p.wordMap.lookup word with
  | none => rfl
  | some i => rfl

lemma getWordInto_eq (p : Parser) (index : ℕ) (word : Word) :
    p.getWordInto index word = (p.getWord index).map (fun w => (w.isSome, w.getD word)) := by
  rw [getWordInto, getWord]
  split
  · rfl
  · cases (fetch .words p.words index : Exec Container Word) with
    | error e => rfl
    | ok w => rfl

def Reachable (lastIndex : ℕ) (calls : List Call) (p : Parser) : Prop :=
  ∃ p₀, construct lastIndex = .ok p₀ ∧ Runs.Run step (fun _ _ => True) p₀ calls p

lemma addPair_same {p q : Parser} {word : Word} {lastIndex index : ℕ}
    (h : p.addPair word lastIndex = .ok (q, index)) :
    q.wordMap = (p.intern word).1.wordMap ∧ q.words = (p.intern word).1.words ∧
    q.wordNumber = (p.intern word).1.wordNumber ∧
    q.counts.length = (p.intern word).1.counts.length ∧
    q.nonzeroPairs.length = (p.intern word).1.nonzeroPairs.length := by
  rw [addPair] at h
  generalize p.intern word = r at *
  obtain ⟨r, i⟩ := r
  obtain ⟨counts, hcounts, h⟩ := bind_eq_ok.mp h
  have hlength := update_length hcounts
  dsimp only at hcounts h ⊢
  split at h
  · obtain ⟨nonzeroPairs, hpairs, h⟩ := bind_eq_ok.mp h
    obtain ⟨rfl, rfl⟩ := Prod.mk.inj (Except.ok.inj h)
    exact ⟨rfl, rfl, rfl, hlength, update_length hpairs⟩
  · obtain ⟨rfl, rfl⟩ := Prod.mk.inj (Except.ok.inj h)
    exact ⟨rfl, rfl, rfl, hlength, rfl⟩

structure Listed (calls : List Call) (p : Parser) : Prop where
  numbered : p.Numbered
  known : ∀ w, w ∈ p.words ↔ w = [] ∨ w ∈ calls.map Call.word

lemma Listed.addPair {calls : List Call} {p q : Parser} (h : p.Listed calls) {c : Call}
    {lastIndex index : ℕ} (hq : p.addPair c.word lastIndex = .ok (q, index)) :
    q.Listed (calls ++ [c]) := by
  obtain ⟨hmap, hwords, hnumber, hcounts, hpairs⟩ := addPair_same hq
  obtain ⟨hr, -, -, hknown⟩ := h.numbered.intern c.word
  refine ⟨⟨?_, ?_, ?_, ?_⟩, fun w => ?_⟩
  · rw [hmap, hwords]
    exact hr.lookup
  · rw [hwords, hnumber, hr.words_length]
  · rw [hcounts, hnumber, hr.counts_length]
  · rw [hpairs, hnumber, hr.nonzeroPairs_length]
  · rw [hwords, hknown, h.known]
    simp [or_assoc]

lemma Listed.step {calls : List Call} {p q : Parser} (h : p.Listed calls) {c : Call}
    (hq : p.step c = .ok q) : q.Listed (calls ++ [c]) := by
  cases c with
  | addWord word =>
    obtain ⟨⟨r, index⟩, hr, he⟩ := bind_eq_ok.mp hq
    obtain rfl := Except.ok.inj he
    have hlisted := h.addPair (c := .addWord word) hr
    exact ⟨⟨hlisted.numbered.lookup, hlisted.numbered.words_length,
      hlisted.numbered.counts_length, hlisted.numbered.nonzeroPairs_length⟩, hlisted.known⟩
  | addPair word lastIndex =>
    obtain ⟨⟨r, index⟩, hr, he⟩ := bind_eq_ok.mp hq
    obtain rfl := Except.ok.inj he
    exact h.addPair (c := .addPair word lastIndex) hr

lemma Reachable.listed {lastIndex : ℕ} {calls : List Call} {p : Parser}
    (h : Reachable lastIndex calls p) : p.Listed calls := by
  obtain ⟨p₀, hp₀, hrun⟩ := h
  obtain ⟨q, hq, htallied⟩ := construct_eq lastIndex
  rw [hq, Except.ok.injEq] at hp₀
  subst hp₀
  refine Runs.Run.history (P := Listed) hrun ?_ ⟨htallied.numbered, htallied.known⟩
  intro calls p c q hp _ hc
  exact hp.step hc

structure Inverse (calls : List Call) (p : Parser) (i : ℕ) (w : Word) : Prop where
  getWord : ∀ word, ∃ found v, p.getWordInto i word = .ok (found, v) ∧
    (found = true ↔ i < p.wordNumber) ∧ (found = false → v = word) ∧
    (found = true → ∀ index, p.getIndexInto v index = (true, i))
  getIndex : ∀ index, ∃ found j, p.getIndexInto w index = (found, j) ∧
    (found = true ↔ w = [] ∨ w ∈ calls.map Call.word) ∧ (found = false → j = index) ∧
    (found = true → ∀ word, p.getWordInto j word = .ok (true, w))

section

variable {calls : List Call} {p : Parser} (h : p.Listed calls)

include h

lemma Listed.getWordInto_of_getElem? {i : ℕ} {w : Word} (hw : p.words[i]? = some w)
    (word : Word) : p.getWordInto i word = .ok (true, w) := by
  have hlt := (List.getElem?_eq_some_iff.mp hw).1
  rw [h.numbered.words_length] at hlt
  rw [getWordInto, if_neg (by omega), fetch_of_getElem? hw]
  rfl

lemma Listed.getIndexInto_of_getElem? {i : ℕ} {w : Word} (hw : p.words[i]? = some w)
    (index : ℕ) : p.getIndexInto w index = (true, i) := by
  rw [getIndexInto, (h.numbered.lookup w i).mpr hw]

lemma Listed.getWordInto_wordNumber (word : Word) : p.getWordInto p.wordNumber word =
    .error (.outOfRange .words p.wordNumber p.wordNumber) := by
  have hlen := h.numbered.words_length
  rw [getWordInto, if_neg (by omega), fetch_of_le (by omega), hlen]
  rfl

lemma Listed.getIndex (w : Word) (index : ℕ) : ∃ found j, p.getIndexInto w index = (found, j) ∧
    (found = true ↔ w = [] ∨ w ∈ calls.map Call.word) ∧ (found = false → j = index) ∧
    (found = true → ∀ word, p.getWordInto j word = .ok (true, w)) := by
  rw [← h.known w, ← h.numbered.lookup_isSome w, getIndexInto]
  cases hw : p.wordMap.lookup w with
  | none => exact ⟨false, index, rfl, by simp, fun _ => rfl, nofun⟩
  | some i =>
    refine ⟨true, i, rfl, by simp, nofun, fun _ word => ?_⟩
    exact h.getWordInto_of_getElem? ((h.numbered.lookup w i).mp hw) word

lemma Listed.getWord {i : ℕ} (hi : i ≠ p.wordNumber) (word : Word) :
    ∃ found v, p.getWordInto i word = .ok (found, v) ∧
    (found = true ↔ i < p.wordNumber) ∧ (found = false → v = word) ∧
    (found = true → ∀ index, p.getIndexInto v index = (true, i)) := by
  rcases Nat.lt_or_ge i p.wordNumber with hlt | hge
  · rw [← h.numbered.words_length] at hlt
    have hw := List.getElem?_eq_getElem hlt
    rw [h.numbered.words_length] at hlt
    exact ⟨true, _, h.getWordInto_of_getElem? hw word, by simp [hlt], nofun,
      fun _ index => h.getIndexInto_of_getElem? hw index⟩
  · have hgt : p.wordNumber < i := by omega
    exact ⟨false, word, by rw [getWordInto, if_pos hgt], by simp [hge], fun _ => rfl,
      nofun⟩

end

theorem lookups_law (lastIndex : ℕ) (calls : List Call) (p : Parser)
    (h : Reachable lastIndex calls p) (i : ℕ) (w : Word) :
    p.Inverse calls i w ↔ i ≠ p.wordNumber := by
  have hl := h.listed
  constructor
  · rintro hinv rfl
    obtain ⟨found, v, hget, -⟩ := hinv.getWord []
    rw [hl.getWordInto_wordNumber] at hget
    cases hget
  · intro hi
    exact ⟨hl.getWord hi, hl.getIndex w⟩

theorem lookups_law_three : ∃ p, Reachable 5 [.addWord [97], .addPair [] 1, .addWord [98]] p ∧
    p.Inverse [.addWord [97], .addPair [] 1, .addWord [98]] 2 [97] := by
  have h : Reachable 5 [.addWord [97], .addPair [] 1, .addWord [98]] (_ : Parser) :=
    ⟨_, rfl, .cons trivial rfl (.cons trivial rfl (.cons trivial rfl .nil))⟩
  exact ⟨_, h, (lookups_law _ _ _ h 2 [97]).mpr (by decide)⟩

theorem lookups_law_fails : ∃ p, Reachable 0 [.addWord [97]] p ∧
    ¬ p.Inverse [.addWord [97]] 2 [97] := by
  -- the third word is asked for where there are two
  refine ⟨_, ⟨_, rfl, .cons trivial rfl .nil⟩, fun h => ?_⟩
  obtain ⟨found, v, hget, -⟩ := h.getWord []
  cases hget

end Parser

end WordModel
