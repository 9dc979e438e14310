import WordModel.Library.Checked
import WordModel.Library.Runs
import Mathlib.Data.List.AList
import Mathlib.Data.List.GetD
import Mathlib.Data.List.Induction
import Mathlib.Algebra.Group.Nat.Defs

/-! The parser numbers the words, and counts them and the pairs of words in a row. -/

namespace WordModel

open Checked

namespace Parser

abbrev Word := List UInt8

inductive Container where
  | counts
  | words
  | nonzeroPairs
  deriving DecidableEq, Repr

end Parser

structure Parser where
  wordNumber : ℕ
  lastIndex : ℕ
  wordMap : AList fun _ : Parser.Word => ℕ
  counts : List UInt32
  words : List Parser.Word
  nonzeroPairs : List (List ℕ)
  pairCounts : AList fun _ : ℕ × ℕ => UInt32

namespace Parser

def getIndex (p : Parser) (word : Word) : Option ℕ := p.wordMap.lookup word

def getWord (p : Parser) (index : ℕ) : Exec Container (Option Word) :=
  if p.wordNumber < index then .ok none
  else do
    let word ← fetch .words p.words index
    return some word

def countAt (p : Parser) (index : ℕ) : Exec Container UInt32 := fetch .counts p.counts index

def count (p : Parser) (word : Word) : Exec Container UInt32 :=
  match p.getIndex word with
  | some index => p.countAt index
  | none => .ok 0

def countPairAt (p : Parser) (i j : ℕ) : UInt32 :=
  match p.pairCounts.lookup (i, j) with
  | some n => n
  | none => 0

def countPair (p : Parser) (wordI wordJ : Word) : UInt32 :=
  match p.wordMap.lookup wordI, p.wordMap.lookup wordJ with
  | some i, some j => p.countPairAt i j
  | _, _ => 0

def iteratePairs (p : Parser) (index : ℕ) : Exec Container (List ℕ) :=
  fetch .nonzeroPairs p.nonzeroPairs index

def intern (p : Parser) (word : Word) : Parser × ℕ :=
  match p.wordMap.lookup word with
  | none => ({ p with
      wordNumber := p.wordNumber + 1
      wordMap := p.wordMap.insert word p.wordNumber
      words := p.words ++ [word]
      counts := p.counts ++ [0]
      nonzeroPairs := p.nonzeroPairs ++ [[]] }, p.wordNumber)
  | some index => (p, index)

def countKey (pairCounts : AList fun _ : ℕ × ℕ => UInt32) (key : ℕ × ℕ) :
    AList fun _ : ℕ × ℕ => UInt32 :=
  match pairCounts.lookup key with
  | none => pairCounts.insert key 1
  | some n => pairCounts.insert key (n + 1)

def addPair (p : Parser) (word : Word) (lastIndex : ℕ) : Exec Container (Parser × ℕ) := do
  let (p, index) := p.intern word
  let counts ← update .counts p.counts index (· + 1)
  let p := { p with counts := counts }
  -- the first word of all follows none
  if 1 < p.wordNumber then do
    let p := { p with pairCounts := countKey p.pairCounts (lastIndex, index) }
    let nonzeroPairs ← update .nonzeroPairs p.nonzeroPairs lastIndex (· ++ [index])
    return ({ p with nonzeroPairs := nonzeroPairs }, index)
  else return (p, index)

def addWord (p : Parser) (word : Word) : Exec Container Parser := do
  let (p, index) ← p.addPair word p.lastIndex
  return { p with lastIndex := index }

-- The constructor leaves `last_index_` as it finds it, and passes it on.
def construct (lastIndex : ℕ) : Exec Container Parser :=
  addWord ⟨0, lastIndex, ∅, [], [], [], ∅⟩ []

inductive Call where
  | addWord (word : Word)
  | addPair (word : Word) (lastIndex : ℕ)

def Call.word : Call → Word
  | .addWord word => word
  | .addPair word _ => word

def step (p : Parser) : Call → Exec Container Parser
  | .addWord word => p.addWord word
  | .addPair word lastIndex => do
    let (p, _) ← p.addPair word lastIndex
    return p

def Call.CanOccur (p : Parser) : Call → Prop
  | .addWord word => word ≠ []
  | .addPair word lastIndex => word ≠ [] ∧ lastIndex < p.wordNumber

def Reached (lastIndex : ℕ) (calls : List Call) (p : Parser) : Prop :=
  ∃ p₀, construct lastIndex = .ok p₀ ∧ Runs.Run step (fun p c => c.CanOccur p) p₀ calls p

def lastAdded (index : Word → ℕ) (calls : List Call) : ℕ :=
  calls.foldl (fun last c => match c with
    | .addWord word => index word
    | .addPair _ _ => last) 0

def previous (index : Word → ℕ) (calls : List Call) : Call → ℕ
  | .addWord _ => lastAdded index calls
  | .addPair _ lastIndex => lastIndex

def pairs (index : Word → ℕ) (calls : List Call) : List (ℕ × ℕ) :=
  calls.mapIdx (fun k c => (previous index (calls.take k) c, index c.word))

def followers {α : Type} [DecidableEq α] (ps : List (α × α)) (i : α) : List α :=
  (ps.filter (fun p => p.1 = i)).map Prod.snd

def index (p : Parser) (word : Word) : ℕ := (p.getIndex word).getD 0

structure Numbered (p : Parser) : Prop where
  lookup : ∀ w i, p.wordMap.lookup w = some i ↔ p.words[i]? = some w
  words_length : p.words.length = p.wordNumber
  counts_length : p.counts.length = p.wordNumber
  nonzeroPairs_length : p.nonzeroPairs.length = p.wordNumber

section

variable {p : Parser} (h : p.Numbered)

include h

lemma Numbered.lt_of_lookup {w : Word} {i : ℕ} (hw : p.wordMap.lookup w = some i) :
    i < p.wordNumber := by
  rw [← h.words_length]
  exact (List.getElem?_eq_some_iff.mp ((h.lookup w i).mp hw)).1

lemma Numbered.lookup_isSome (w : Word) : (p.wordMap.lookup w).isSome ↔ w ∈ p.words := by
  rw [Option.isSome_iff_exists, List.mem_iff_getElem?]
  simp [h.lookup]

lemma Numbered.lookup_index {w : Word} (hw : w ∈ p.words) :
    p.wordMap.lookup w = some (p.index w) := by
  obtain ⟨i, hi⟩ := Option.isSome_iff_exists.mp ((h.lookup_isSome w).mpr hw)
  rw [index, getIndex, hi]
  rfl

lemma Numbered.index_eq {w : Word} {i : ℕ} (hw : p.words[i]? = some w) : p.index w = i := by
  rw [index, getIndex, (h.lookup w i).mpr hw]
  rfl

lemma Numbered.intern (w : Word) : (p.intern w).1.Numbered ∧
    (p.intern w).1.wordMap.lookup w = some (p.intern w).2 ∧ p.words <+: (p.intern w).1.words ∧
    ∀ v, v ∈ (p.intern w).1.words ↔ v ∈ p.words ∨ v = w := by
  rw [Parser.intern]
  cases hw : p.wordMap.lookup w with
  | some i =>
    have hmem := (h.lookup_isSome w).mp (by rw [hw]; rfl)
    refine ⟨h, hw, List.prefix_rfl, fun v => ⟨Or.inl, ?_⟩⟩
    rintro (hv | rfl)
    · exact hv
    · exact hmem
  | none =>
    have hnew : w ∉ p.words := by
      intro hmem
      have hsome := (h.lookup_isSome w).mpr hmem
      rw [hw] at hsome
      cases hsome
    refine ⟨⟨fun v i => ?_, ?_, ?_, ?_⟩, AList.lookup_insert _, List.prefix_append _ _, by simp⟩
    · dsimp only
      by_cases hv : v = w
      · rw [hv, AList.lookup_insert, Option.some.injEq]
        constructor
        · rintro rfl
          rw [← h.words_length, List.getElem?_concat_length]
        · intro hi
          obtain ⟨hlt, hget⟩ := List.getElem?_eq_some_iff.mp hi
          rw [List.length_append, List.length_singleton] at hlt
          by_contra hne
          have hlt' : i < p.words.length := by
            have hlen := h.words_length
            omega
          rw [List.getElem_append_left hlt'] at hget
          exact hnew (hget ▸ List.getElem_mem hlt')
      · rw [AList.lookup_insert_ne hv, h.lookup, List.getElem?_append]
        split
        · rfl
        · rename_i hlt
          rw [List.getElem?_eq_none (not_lt.mp hlt), List.getElem?_singleton]
          split
          · simpa using Ne.symm hv
          · rfl
    · simp [h.words_length]
    · simp [h.counts_length]
    · simp [h.nonzeroPairs_length]

end

lemma count_eq (p : Parser) (h : p.Numbered) (w : Word) :
    p.count w = .ok ((p.getIndex w).elim 0 (fun i => p.counts.getD i 0)) := by
  rw [count]
  cases hw : p.getIndex w with
  | none => rfl
  | some i =>
    have hlt := h.lt_of_lookup hw
    rw [← h.counts_length] at hlt
    dsimp only
    rw [countAt, fetch_of_getElem? (List.getElem?_eq_getElem hlt), Option.elim_some,
      List.getD_eq_getElem _ _ hlt]

lemma intern_same (p : Parser) (h : p.Numbered) (w : Word) :
    (∀ v, (p.intern w).1.count v = p.count v) ∧
    (∀ i, (p.intern w).1.nonzeroPairs.getD i [] = p.nonzeroPairs.getD i []) ∧
    (p.intern w).1.pairCounts = p.pairCounts := by
  obtain ⟨hq, -⟩ := h.intern w
  rw [intern] at hq ⊢
  cases hw : p.wordMap.lookup w with
  | some i => exact ⟨fun _ => rfl, fun _ => rfl, rfl⟩
  | none =>
    rw [hw] at hq
    have hdefault {α : Type} (xs : List α) (x : α) (i : ℕ) :
        (xs ++ [x]).getD i x = xs.getD i x := by
      simp only [List.getD_eq_getElem?_getD, List.getElem?_append, List.getElem?_singleton]
      split
      · rfl
      · rename_i hlt
        rw [List.getElem?_eq_none (not_lt.mp hlt)]
        split <;> rfl
    refine ⟨fun v => ?_, fun i => hdefault _ _ i, rfl⟩
    dsimp only
    rw [count_eq _ hq, count_eq _ h]
    dsimp only [getIndex]
    by_cases hv : v = w
    · rw [hv, AList.lookup_insert, hw, Option.elim_some, Option.elim_none, hdefault,
        List.getD_eq_default _ _ (Nat.le_of_eq h.counts_length)]
    · rw [AList.lookup_insert_ne hv]
      simp only [hdefault]

lemma lastAdded_concat (index : Word → ℕ) (calls : List Call) (c : Call) :
    lastAdded index (calls ++ [c]) = match c with
      | .addWord word => index word
      | .addPair _ _ => lastAdded index calls := by
  rw [lastAdded, List.foldl_append]
  rfl

lemma pairs_concat (index : Word → ℕ) (calls : List Call) (c : Call) :
    pairs index (calls ++ [c]) = pairs index calls ++ [(previous index calls c, index c.word)] := by
  rw [pairs, List.mapIdx_concat, List.take_left, pairs, List.append_cancel_right_eq,
    List.mapIdx_eq_mapIdx_iff]
  intro k hk
  rw [List.take_append_of_le_length (Nat.le_of_lt hk)]

lemma lastAdded_congr {index index' : Word → ℕ} {calls : List Call}
    (h : ∀ c ∈ calls, index c.word = index' c.word) :
    lastAdded index calls = lastAdded index' calls := by
  induction calls using List.reverseRecOn with
  | nil => rfl
  | append_singleton calls c ih =>
    rw [lastAdded_concat, lastAdded_concat, ih (fun d hd => h d (by simp [hd]))]
    cases c with
    | addWord word => exact h (.addWord word) (by simp)
    | addPair word lastIndex => rfl

lemma pairs_congr {index index' : Word → ℕ} {calls : List Call}
    (h : ∀ c ∈ calls, index c.word = index' c.word) : pairs index calls = pairs index' calls := by
  induction calls using List.reverseRecOn with
  | nil => rfl
  | append_singleton calls c ih =>
    have hinit : ∀ d ∈ calls, index d.word = index' d.word := fun d hd => h d (by simp [hd])
    have hprevious : previous index calls c = previous index' calls c := by
      cases c with
      | addWord word => exact lastAdded_congr hinit
      | addPair word lastIndex => rfl
    rw [pairs_concat, pairs_concat, ih hinit, hprevious, h c (by simp)]

lemma followers_concat {α : Type} [DecidableEq α] (ps : List (α × α)) (q : α × α) (i : α) :
    followers (ps ++ [q]) i = followers ps i ++ if q.1 = i then [q.2] else [] := by
  rw [followers, List.filter_append, List.map_append, followers]
  by_cases hq : q.1 = i
  · simp [hq]
  · simp [hq]

lemma count_followers {α : Type} [DecidableEq α] (ps : List (α × α)) (i j : α) :
    (followers ps i).count j = ps.count (i, j) := by
  induction ps using List.reverseRecOn with
  | nil => rfl
  | append_singleton ps q ih =>
    rw [followers_concat, List.count_append, ih, List.count_append, List.count_singleton]
    congr 1
    by_cases hi : q.1 = i
    · by_cases hj : q.2 = j
      · simp [hi, hj, Prod.ext_iff]
      · simp [hi, hj, Prod.ext_iff]
    · simp [hi, Prod.ext_iff]

lemma countKey_lookup (pairCounts : AList fun _ : ℕ × ℕ => UInt32) (key k : ℕ × ℕ) :
    ((countKey pairCounts key).lookup k).getD 0 =
      (pairCounts.lookup k).getD 0 + if key = k then 1 else 0 := by
  rw [countKey]
  by_cases hk : k = key
  · subst hk
    cases hl : pairCounts.lookup k with
    | none => simp
    | some n => simp
  · cases hl : pairCounts.lookup key with
    | none => simp [AList.lookup_insert_ne hk, Ne.symm hk]
    | some n => simp [AList.lookup_insert_ne hk, Ne.symm hk]

lemma countPairAt_eq (p : Parser) (i j : ℕ) :
    p.countPairAt i j = (p.pairCounts.lookup (i, j)).getD 0 := by
  rw [countPairAt]
  cases p.pairCounts.lookup (i, j) with
  | none => rfl
  | some n => rfl

def recorded (p : Parser) (lastIndex previous index : ℕ) : Parser :=
  { p with
    lastIndex := lastIndex
    counts := p.counts.modify index (· + 1)
    nonzeroPairs := p.nonzeroPairs.modify previous (· ++ [index])
    pairCounts := countKey p.pairCounts (previous, index) }

lemma recorded_numbered {p : Parser} (h : p.Numbered) (lastIndex previous index : ℕ) :
    (p.recorded lastIndex previous index).Numbered where
  lookup := h.lookup
  words_length := h.words_length
  counts_length := by rw [recorded, List.length_modify, h.counts_length]
  nonzeroPairs_length := by rw [recorded, List.length_modify, h.nonzeroPairs_length]

lemma recorded_count {p : Parser} (h : p.Numbered) {w : Word} {index : ℕ}
    (hw : p.wordMap.lookup w = some index) (lastIndex previous : ℕ) (v : Word) :
    (p.recorded lastIndex previous index).count v =
      (p.count v).map (· + if w = v then 1 else 0) := by
  have hlt := h.lt_of_lookup hw
  rw [← h.counts_length] at hlt
  rw [count_eq _ (recorded_numbered h lastIndex previous index), count_eq _ h, Except.map,
    Except.ok.injEq]
  change (p.wordMap.lookup v).elim 0 _ = (p.wordMap.lookup v).elim 0 _ + _
  by_cases hv : w = v
  · subst hv
    rw [hw]
    simp [recorded, hlt]
  · cases hl : p.wordMap.lookup v with
    | none => simp [hv]
    | some k =>
      have hne : index ≠ k := by
        rintro rfl
        have hget := (h.lookup w _).mp hw
        rw [(h.lookup v _).mp hl] at hget
        exact hv (Option.some.inj hget).symm
      simp [recorded, hne, hv]

lemma recorded_followers {p : Parser} (h : p.Numbered) {previous : ℕ}
    (hlt : previous < p.wordNumber) (lastIndex index i : ℕ) :
    (p.recorded lastIndex previous index).nonzeroPairs.getD i [] =
      p.nonzeroPairs.getD i [] ++ if previous = i then [index] else [] := by
  rw [← h.nonzeroPairs_length] at hlt
  by_cases hi : previous = i
  · subst hi
    simp [recorded, hlt]
  · simp [recorded, hi]

lemma addPair_eq {p : Parser} (h : p.Numbered) (hfirst : p.words[0]? = some []) {word : Word}
    (hne : word ≠ []) {lastIndex : ℕ} (hlt : lastIndex < p.wordNumber) :
    p.addPair word lastIndex =
      .ok ((p.intern word).1.recorded p.lastIndex lastIndex (p.intern word).2,
        (p.intern word).2) := by
  obtain ⟨hq, hword, hprefix, -⟩ := h.intern word
  have hlast : (p.intern word).1.lastIndex = p.lastIndex := by
    rw [intern]
    cases p.wordMap.lookup word with
    | none => rfl
    | some i => rfl
  have hle := hprefix.length_le
  rw [h.words_length, hq.words_length] at hle
  have hindex := hq.lt_of_lookup hword
  have hpos : (p.intern word).2 ≠ 0 := by
    intro hzero
    obtain ⟨ws, hws⟩ := hprefix
    have hget := (hq.lookup word _).mp hword
    rw [hzero, ← hws, List.getElem?_append_left (List.getElem?_eq_some_iff.mp hfirst).1,
      hfirst] at hget
    exact hne (Option.some.inj hget).symm
  rw [addPair, ← hlast]
  generalize p.intern word = q at *
  obtain ⟨q, index⟩ := q
  dsimp only at hq hle hindex hpos ⊢
  rw [update_of_lt (by rwa [hq.counts_length]), ok_bind, if_pos (by omega),
    update_of_lt (by rw [hq.nonzeroPairs_length]; omega)]
  rfl

/-- What the tables hold after the calls. -/
structure Tallied (calls : List Call) (p : Parser) : Prop where
  numbered : p.Numbered
  first : p.words[0]? = some []
  known : ∀ w, w ∈ p.words ↔ w = [] ∨ w ∈ calls.map Call.word
  lastIndex : p.lastIndex = lastAdded p.index calls
  lastIndex_lt : p.lastIndex < p.wordNumber
  count : ∀ w, p.count w = .ok (UInt32.ofNat (([] :: calls.map Call.word).count w))
  pairCounts : ∀ i j, p.countPairAt i j = UInt32.ofNat ((pairs p.index calls).count (i, j))
  nonzeroPairs : ∀ i, p.nonzeroPairs.getD i [] = followers (pairs p.index calls) i

lemma construct_eq (lastIndex : ℕ) : ∃ p, construct lastIndex = .ok p ∧ p.Tallied [] := by
  refine ⟨⟨1, 0, AList.insert [] 0 ∅, [1], [[]], [[]], ∅⟩, rfl, ?_⟩
  have hnumbered : Numbered ⟨1, 0, AList.insert [] 0 ∅, [1], [[]], [[]], ∅⟩ := by
    refine ⟨fun w i => ?_, rfl, rfl, rfl⟩
    by_cases hw : w = []
    · subst hw
      rw [AList.lookup_insert]
      cases i with
      | zero => simp
      | succ i => simp
    · rw [AList.lookup_insert_ne hw]
      cases i with
      | zero => simpa using Ne.symm hw
      | succ i => simp
  refine ⟨hnumbered, rfl, by simp, rfl, Nat.zero_lt_one, fun w => ?_, fun _ _ => rfl, fun i => ?_⟩
  · rw [count_eq _ hnumbered]
    by_cases hw : w = []
    · subst hw
      rfl
    · rw [getIndex, AList.lookup_insert_ne hw, AList.lookup_empty]
      simp [Ne.symm hw]
  · cases i with
    | zero => rfl
    | succ i => rfl

section

variable {calls : List Call} {p : Parser} (h : p.Tallied calls)

include h

lemma Tallied.intern_index (w v : Word) (hv : v ∈ p.words) :
    (p.intern w).1.index v = p.index v := by
  obtain ⟨hq, -, ⟨ws, hws⟩, -⟩ := h.numbered.intern w
  apply hq.index_eq
  have hget := (h.numbered.lookup v _).mp (h.numbered.lookup_index hv)
  rw [← hws, List.getElem?_append_left (List.getElem?_eq_some_iff.mp hget).1, hget]

lemma Tallied.interned_index (w : Word) : (p.intern w).1.index w = (p.intern w).2 := by
  obtain ⟨-, hword, -⟩ := h.numbered.intern w
  rw [index, getIndex, hword]
  rfl

lemma Tallied.intern_le (w : Word) : p.wordNumber ≤ (p.intern w).1.wordNumber := by
  obtain ⟨hq, -, hprefix, -⟩ := h.numbered.intern w
  have hle := hprefix.length_le
  rwa [h.numbered.words_length, hq.words_length] at hle

lemma Tallied.call_known {c : Call} (hc : c ∈ calls) : c.word ∈ p.words :=
  (h.known _).mpr (Or.inr (List.mem_map_of_mem hc))

lemma Tallied.pairs_intern (c : Call) : pairs (p.intern c.word).1.index (calls ++ [c]) =
    pairs p.index calls ++ [(previous p.index calls c, (p.intern c.word).2)] := by
  have hold (d : Call) (hd : d ∈ calls) :
      p.index d.word = (p.intern c.word).1.index d.word :=
    (h.intern_index c.word d.word (h.call_known hd)).symm
  have hsame : previous (p.intern c.word).1.index calls c = previous p.index calls c := by
    cases c with
    | addWord word => exact (lastAdded_congr hold).symm
    | addPair word lastIndex => rfl
  rw [pairs_concat, ← pairs_congr hold, h.interned_index, hsame]

lemma Tallied.record {c : Call} (hprevious : previous p.index calls c < p.wordNumber) {l : ℕ}
    (hl : l = lastAdded (p.intern c.word).1.index (calls ++ [c]))
    (hlt : l < (p.intern c.word).1.wordNumber) :
    ((p.intern c.word).1.recorded l (previous p.index calls c) (p.intern c.word).2).Tallied
      (calls ++ [c]) := by
  obtain ⟨hq, hword, hprefix, hknown⟩ := h.numbered.intern c.word
  obtain ⟨hcount, hfollow, hpairs⟩ := intern_same p h.numbered c.word
  have hpair := h.pairs_intern c
  have hle := h.intern_le c.word
  generalize p.intern c.word = q at *
  obtain ⟨q, i⟩ := q
  dsimp only at *
  have hrecorded := recorded_numbered hq l (previous p.index calls c) i
  have hi := hq.lt_of_lookup hword
  rw [← hq.counts_length] at hi
  refine ⟨hrecorded, ?_, fun w => ?_, hl, hlt, fun w => ?_, fun j k => ?_, fun j => ?_⟩
  · obtain ⟨ws, hws⟩ := hprefix
    change q.words[0]? = some []
    rw [← hws, List.getElem?_append_left (List.getElem?_eq_some_iff.mp h.first).1, h.first]
  · change w ∈ q.words ↔ _
    rw [hknown, h.known]
    simp [or_assoc]
  · rw [recorded_count hq hword, hcount, h.count, List.map_append, List.map_singleton,
      ← List.cons_append, List.count_append, UInt32.ofNat_add, List.count_singleton]
    simp [Except.map, apply_ite UInt32.ofNat]
  · change (q.recorded l (previous p.index calls c) i).countPairAt j k =
      UInt32.ofNat ((pairs q.index (calls ++ [c])).count (j, k))
    rw [hpair, countPairAt_eq, recorded, countKey_lookup, hpairs, ← countPairAt_eq, h.pairCounts,
      List.count_append, UInt32.ofNat_add, List.count_singleton]
    congr 1
    by_cases hjk : (previous p.index calls c, i) = (j, k)
    · simp [hjk]
    · simp [hjk]
  · change (q.recorded l (previous p.index calls c) i).nonzeroPairs.getD j [] =
      followers (pairs q.index (calls ++ [c])) j
    rw [hpair, followers_concat, ← h.nonzeroPairs, ← hfollow]
    exact recorded_followers hq (Nat.lt_of_lt_of_le hprevious hle) l i j

lemma Tallied.step {c : Call} (hc : c.CanOccur p) :
    ∃ q, p.step c = .ok q ∧ q.Tallied (calls ++ [c]) := by
  obtain ⟨hq, hword, -⟩ := h.numbered.intern c.word
  cases c with
  | addWord word =>
    have hprevious : previous p.index calls (.addWord word) = p.lastIndex := h.lastIndex.symm
    have hlt : previous p.index calls (.addWord word) < p.wordNumber := by
      rw [hprevious]
      exact h.lastIndex_lt
    refine ⟨_, ?_, h.record hlt (l := (p.intern word).2) ?_ (hq.lt_of_lookup hword)⟩
    · rw [Parser.step, addWord, addPair_eq h.numbered h.first hc h.lastIndex_lt, hprevious]
      rfl
    · rw [lastAdded_concat]
      exact (h.interned_index word).symm
  | addPair word lastIndex =>
    refine ⟨_, ?_, h.record (c := .addPair word lastIndex) hc.2 (l := p.lastIndex) ?_ ?_⟩
    · rw [Parser.step, addPair_eq h.numbered h.first hc.1 hc.2]
      rfl
    · rw [lastAdded_concat, h.lastIndex]
      exact lastAdded_congr (fun d hd => (h.intern_index word d.word (h.call_known hd)).symm)
    · exact Nat.lt_of_lt_of_le h.lastIndex_lt (h.intern_le word)

lemma Tallied.follower_lt {i j : ℕ} (hj : j ∈ p.nonzeroPairs.getD i []) : j < p.wordNumber := by
  rw [h.nonzeroPairs] at hj
  have hpos := List.count_pos_iff.mpr hj
  rw [count_followers] at hpos
  obtain ⟨k, hk, hget⟩ := List.mem_mapIdx.mp (List.count_pos_iff.mp hpos)
  obtain ⟨-, rfl⟩ := Prod.mk.inj hget
  exact h.numbered.lt_of_lookup (h.numbered.lookup_index (h.call_known (List.getElem_mem hk)))

end

lemma Reached.tallied {lastIndex : ℕ} {calls : List Call} {p : Parser}
    (h : Reached lastIndex calls p) : p.Tallied calls := by
  obtain ⟨p₀, hp₀, hrun⟩ := h
  obtain ⟨q, hq, htallied⟩ := construct_eq lastIndex
  rw [hq, Except.ok.injEq] at hp₀
  subst hp₀
  refine Runs.Run.history (P := Tallied) hrun (fun calls p c q hp hc he => ?_) htallied
  obtain ⟨r, hr, hcalls⟩ := hp.step hc
  rw [he, Except.ok.injEq] at hr
  exact hr ▸ hcalls

theorem tables_law (lastIndex : ℕ) (calls : List Call) (p : Parser)
    (h : Reached lastIndex calls p) :
    (∀ w i, p.wordMap.lookup w = some i ↔ p.words[i]? = some w) ∧
    (p.words[0]? = some [] ∧ ∀ w, w ∈ p.words ↔ w = [] ∨ w ∈ calls.map Call.word) ∧
    (p.words.length = p.wordNumber ∧ p.counts.length = p.wordNumber ∧
      p.nonzeroPairs.length = p.wordNumber) ∧
    (∀ w i, p.words[i]? = some w →
      p.countAt i = .ok (UInt32.ofNat (([] :: calls.map Call.word).count w))) ∧
    (∀ i j, p.countPairAt i j = UInt32.ofNat ((pairs p.index calls).count (i, j))) ∧
    (∀ i < p.wordNumber, p.iteratePairs i = .ok (followers (pairs p.index calls) i) ∧
      ∀ j, UInt32.ofNat ((followers (pairs p.index calls) i).count j) = p.countPairAt i j) ∧
    (∀ v w i j, p.wordMap.lookup v = some i → p.wordMap.lookup w = some j →
      p.count v = p.countAt i ∧ p.countPair v w = p.countPairAt i j) ∧
    (∀ c : Call, c.CanOccur p → ∃ q, p.step c = .ok q) := by
  have ht := h.tallied
  have hcount {v : Word} {i : ℕ} (hv : p.wordMap.lookup v = some i) : p.count v = p.countAt i := by
    rw [count, getIndex, hv]
  refine ⟨ht.numbered.lookup, ⟨ht.first, ht.known⟩, ⟨ht.numbered.words_length,
    ht.numbered.counts_length, ht.numbered.nonzeroPairs_length⟩, fun w i hw => ?_, ht.pairCounts,
    fun i hi => ⟨?_, fun j => ?_⟩, fun v w i j hv hw => ⟨hcount hv, ?_⟩, fun c hc => ?_⟩
  · rw [← hcount ((ht.numbered.lookup w i).mpr hw), ht.count]
  · rw [← ht.numbered.nonzeroPairs_length] at hi
    rw [iteratePairs, fetch_of_getElem? (List.getElem?_eq_getElem hi), ← ht.nonzeroPairs,
      List.getD_eq_getElem _ _ hi]
  · rw [count_followers, ht.pairCounts]
  · rw [countPair, hv, hw]
  · obtain ⟨q, hq, -⟩ := ht.step hc
    exact ⟨q, hq⟩

theorem tables_law_three : ∃ p, Reached 5 [.addWord [97], .addPair [98] 1, .addWord [97]] p ∧
    p.words.length = p.wordNumber ∧ p.iteratePairs 1 = .ok [2, 1] := by
  have hne (c : UInt8) : [c] ≠ [] := List.cons_ne_nil c []
  have hlt : 1 < 2 := Nat.lt_succ_self 1
  have h : Reached 5 [.addWord [97], .addPair [98] 1, .addWord [97]] (_ : Parser) :=
    ⟨_, rfl, .cons (hne 97) rfl (.cons ⟨hne 98, hlt⟩ rfl (.cons (hne 97) rfl .nil))⟩
  exact ⟨_, h, (tables_law _ _ _ h).2.2.1.1, rfl⟩

end Parser

end WordModel
