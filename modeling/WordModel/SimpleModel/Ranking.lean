import WordModel.Library.Decimal
import WordModel.Library.Ranking
import WordModel.SimpleModel.Lookups

/-! The summary of a parser: its most frequent words, kept in a list that takes twenty. -/

namespace WordModel

open Checked Decimal Ranking

namespace Parser

inductive Store where
  | counts
  | words
  | topWords
  deriving DecidableEq, Repr

def topWordNumber : ℕ := 20

-- `for(j = top_words.size(); j > 0 && counts[i] > counts[top_words[j-1]]; --j)`
def findPlace (p : Parser) (topWords : List ℕ) (i : ℕ) : ℕ → Exec Store ℕ
  | 0 => .ok 0
  | j + 1 => do
    let count ← fetch .counts p.counts i
    let t ← fetch .topWords topWords j
    let other ← fetch .counts p.counts t
    if other < count then findPlace p topWords i j else return j + 1

-- `for(k = top_words.size() - 1; k > j; --k)`
def shiftDown (topWords : List ℕ) (j : ℕ) : ℕ → Exec Store (List ℕ)
  | 0 => .ok topWords
  | k + 1 =>
    if j < k + 1 then do
      let t ← fetch .topWords topWords k
      let topWords ← update .topWords topWords (k + 1) (fun _ => t)
      shiftDown topWords j k
    else .ok topWords

-- `top_words.push_back(top_words[top_words.size() - 1])`, while there is room
def growTop (topWords : List ℕ) : Exec Store (List ℕ) :=
  if topWords.length < topWordNumber then do
    let t ← fetch .topWords topWords (topWords.length - 1)
    return topWords ++ [t]
  else .ok topWords

def insertAt (topWords : List ℕ) (i j : ℕ) : Exec Store (List ℕ) :=
  if j = topWords.length ∧ topWords.length < topWordNumber then .ok (topWords ++ [i])
  else do
    let topWords ← growTop topWords
    let topWords ← shiftDown topWords j (topWords.length - 1)
    update .topWords topWords j (fun _ => i)

def rankWord (p : Parser) (topWords : List ℕ) (i : ℕ) : Exec Store (List ℕ) := do
  let j ← p.findPlace topWords i topWords.length
  insertAt topWords i j

def text (s : String) : Bytes := s.toList.map ascii

def line (word : Word) (count : UInt32) : Bytes :=
  text "\t <" ++ word ++ text "> " ++ decimal count.toNat ++ text "\n"

def printWord (p : Parser) (topWords : List ℕ) (i : ℕ) : Exec Store Bytes := do
  let t ← fetch .topWords topWords i
  let word ← fetch .words p.words t
  let count ← fetch .counts p.counts t
  return line word count

def heading (p : Parser) : Bytes :=
  text "Word number: " ++ decimal p.wordNumber ++ text "\n" ++ text "Top words:\n"

def printSummary (p : Parser) : Exec Store Bytes := do
  let topWords ← (List.range p.wordNumber).foldlM p.rankWord []
  let lines ← (List.range topWords.length).mapM (p.printWord topWords)
  return p.heading ++ lines.flatten

def countOf (p : Parser) (i : ℕ) : ℕ := (p.counts.getD i 0).toNat

def ranked (p : Parser) (n : ℕ) : List ℕ := (List.range n).insertionSort (Outranks p.countOf)

def summary (p : Parser) : Bytes :=
  p.heading ++ ((p.ranked p.wordNumber).take topWordNumber).flatMap
    (fun t => line (p.words.getD t []) (p.counts.getD t 0))

/-- When it is the turn of word `i`, one of the words that are kept has to make room. -/
def Enters (p : Parser) (i : ℕ) : Prop :=
  (List.range i).countP (fun j => p.countOf i ≤ p.countOf j) < topWordNumber

instance (p : Parser) (i : ℕ) : Decidable (p.Enters i) := inferInstanceAs (Decidable (_ < _))

lemma ranked_succ (p : Parser) (n : ℕ) :
    p.ranked (n + 1) = (p.ranked n).orderedInsert (Outranks p.countOf) n := by
  rw [ranked, List.range_succ, insertionSort_concat, ranked]

lemma mem_ranked {p : Parser} {n t : ℕ} : t ∈ p.ranked n ↔ t < n := by
  rw [ranked, List.mem_insertionSort, List.mem_range]

lemma place_ranked (p : Parser) (i : ℕ) : place (Outranks p.countOf) i (p.ranked i) =
    (List.range i).countP (fun j => p.countOf i ≤ p.countOf j) := by
  rw [ranked, place_insertionSort]
  apply List.countP_congr
  intro j hj
  simp [outranks_iff (List.mem_range.mp hj)]

section

variable {p : Parser} (h : p.Numbered)

include h

lemma fetch_counts {i : ℕ} (hi : i < p.wordNumber) :
    fetch Store.counts p.counts i = .ok (p.counts.getD i 0) := by
  rw [← h.counts_length] at hi
  rw [fetch_of_getElem? (List.getElem?_eq_getElem hi), List.getD_eq_getElem _ _ hi]

lemma findPlace_eq (topWords : List ℕ) {i : ℕ} (hi : i < p.wordNumber)
    (htop : ∀ t ∈ topWords, t < i) (hsorted : topWords.Pairwise (Outranks p.countOf)) {j : ℕ}
    (hj : j ≤ topWords.length) (hle : place (Outranks p.countOf) i topWords ≤ j) :
    p.findPlace topWords i j = .ok (place (Outranks p.countOf) i topWords) := by
  induction j with
  | zero => rw [findPlace, Nat.le_zero.mp hle]
  | succ j ih =>
    obtain ⟨t, ht⟩ : ∃ t, topWords[j]? = some t := ⟨_, List.getElem?_eq_getElem hj⟩
    have hlt := htop t (List.mem_of_getElem? ht)
    have hplace := rel_iff_place_le (a := i) hsorted ht
    rw [outranks_iff hlt] at hplace
    rw [findPlace, fetch_counts h hi, ok_bind, fetch_of_getElem? ht, ok_bind,
      fetch_counts h (hlt.trans hi), ok_bind]
    by_cases hless : p.counts.getD t 0 < p.counts.getD i 0
    · rw [if_pos hless]
      exact ih (Nat.le_of_succ_le hj) (hplace.mp (UInt32.lt_iff_toNat_lt.mp hless))
    · rw [if_neg hless, pure_eq_ok, Except.ok.injEq]
      have hnot : ¬ place (Outranks p.countOf) i topWords ≤ j :=
        fun hp => hless (UInt32.lt_iff_toNat_lt.mpr (hplace.mpr hp))
      omega

end

lemma shiftDown_spec (topWords : List ℕ) (j : ℕ) {k : ℕ} (hk : k < topWords.length) :
    ∃ shifted, shiftDown topWords j k = .ok shifted ∧ shifted.length = topWords.length ∧
      ∀ n, shifted[n]? = if j < n ∧ n ≤ k then topWords[n - 1]? else topWords[n]? := by
  induction k generalizing topWords with
  | zero =>
    refine ⟨topWords, rfl, rfl, fun n => ?_⟩
    rw [if_neg (by omega)]
  | succ k ih =>
    by_cases hj : j < k + 1
    · obtain ⟨t, ht⟩ : ∃ t, topWords[k]? = some t :=
        ⟨_, List.getElem?_eq_getElem (Nat.lt_of_succ_lt hk)⟩
      obtain ⟨shifted, he, hlength, hshifted⟩ :=
        ih (topWords.modify (k + 1) (fun _ => t)) (by rw [List.length_modify]; omega)
      refine ⟨shifted, ?_, hlength.trans (List.length_modify _ _ _), fun n => ?_⟩
      · rw [shiftDown, if_pos hj, fetch_of_getElem? ht, ok_bind, update_of_lt hk, ok_bind, he]
      · rw [hshifted]
        rcases Nat.lt_trichotomy n (k + 1) with hn | rfl | hn
        · have hsame : (topWords.modify (k + 1) (fun _ => t))[n - 1]? = topWords[n - 1]? :=
            List.getElem?_modify_ne _ _ (by omega)
          rw [hsame, List.getElem?_modify_ne _ _ (by omega)]
          exact if_congr (by omega) rfl rfl
        · rw [if_neg (by omega), if_pos (by omega), Nat.add_sub_cancel, ht,
            List.getElem?_modify_eq, List.getElem?_eq_getElem hk]
          rfl
        · rw [if_neg (by omega), if_neg (by omega), List.getElem?_modify_ne _ _ (by omega)]
    · refine ⟨topWords, by rw [shiftDown, if_neg hj], rfl, fun n => ?_⟩
      rw [if_neg (by omega)]

lemma growTop_spec (topWords : List ℕ) (hpos : 0 < topWords.length)
    (hlen : topWords.length ≤ topWordNumber) : ∃ grown, growTop topWords = .ok grown ∧
      grown.length = min (topWords.length + 1) topWordNumber ∧
      ∀ n, n < topWords.length → grown[n]? = topWords[n]? := by
  by_cases hroom : topWords.length < topWordNumber
  · have hget := List.getElem?_eq_getElem (l := topWords) (i := topWords.length - 1) (by omega)
    refine ⟨_, by rw [growTop, if_pos hroom, fetch_of_getElem? hget]; rfl, ?_, fun n hn => ?_⟩
    · rw [List.length_append, List.length_singleton]
      omega
    · rw [List.getElem?_append_left hn]
  · exact ⟨topWords, by rw [growTop, if_neg hroom], by omega, fun _ _ => rfl⟩

lemma insertAt_eq {topWords : List ℕ} (hlen : topWords.length ≤ topWordNumber) (i : ℕ) {j : ℕ}
    (hj : j ≤ topWords.length) (hlt : j < topWordNumber) :
    insertAt topWords i j = .ok ((topWords.take j ++ i :: topWords.drop j).take topWordNumber) := by
  by_cases hend : j = topWords.length
  · rw [insertAt, if_pos ⟨hend, hend ▸ hlt⟩, hend, List.take_length, List.drop_length,
      List.take_of_length_le]
    rw [List.length_append, List.length_singleton]
    omega
  · obtain ⟨grown, hgrown, hroom, hgrow⟩ := growTop_spec topWords (by omega) hlen
    obtain ⟨shifted, hshift, hlength, hshifted⟩ := shiftDown_spec grown j
      (k := grown.length - 1) (by omega)
    rw [insertAt, if_neg (fun hh => hend hh.1), hgrown, ok_bind, hshift, ok_bind,
      update_of_lt (by omega), Except.ok.injEq]
    have htake : (topWords.take j).length = j := by
      rw [List.length_take]
      omega
    apply List.ext_getElem?
    intro n
    rcases Nat.lt_or_ge n grown.length with hn | hn
    · rw [List.getElem?_take_of_lt (by omega)]
      rcases Nat.lt_trichotomy n j with hnj | rfl | hnj
      · rw [List.getElem?_modify_ne _ _ (by omega), hshifted, if_neg (by omega), hgrow n (by omega),
          List.getElem?_append_left (by omega), List.getElem?_take_of_lt hnj]
      · rw [List.getElem?_modify_eq, List.getElem?_append_right (by omega), htake, Nat.sub_self,
          List.getElem?_eq_getElem (by omega)]
        rfl
      · obtain ⟨k, hk⟩ := Nat.exists_eq_add_of_lt hnj
        rw [List.getElem?_modify_ne _ _ (by omega), hshifted, if_pos (by omega), hgrow _ (by omega),
          List.getElem?_append_right (by omega), htake, show n - j = k + 1 by omega,
          List.getElem?_cons_succ, List.getElem?_drop]
        congr 1
        omega
    · rw [List.getElem?_eq_none (by rw [List.length_modify]; omega), List.getElem?_eq_none]
      rw [List.length_take, List.length_append, List.length_cons, List.length_drop]
      omega

-- Where the list is full and the word belongs after all that it holds, the code writes one
-- past its end.
lemma insertAt_full {topWords : List ℕ} (hlen : topWords.length = topWordNumber) (i : ℕ) :
    insertAt topWords i topWordNumber =
      .error (.outOfRange .topWords topWordNumber topWordNumber) := by
  have hlt : topWords.length - 1 < topWords.length := by
    rw [hlen]
    decide
  obtain ⟨shifted, hshift, hlength, -⟩ := shiftDown_spec topWords topWordNumber hlt
  have hgrown : growTop topWords = .ok topWords := if_neg (by omega)
  rw [insertAt, if_neg (by omega), hgrown, ok_bind, hshift, ok_bind, update, if_neg (by omega),
    hlength, hlen]

section

variable {p : Parser} (h : p.Numbered)

include h

lemma rankWord_eq {i : ℕ} (hi : i < p.wordNumber) :
    p.rankWord ((p.ranked i).take topWordNumber) i =
      if p.Enters i then .ok ((p.ranked (i + 1)).take topWordNumber)
      else .error (.outOfRange .topWords topWordNumber topWordNumber) := by
  have hplace := place_take (Outranks p.countOf) i (p.ranked i) topWordNumber
  have hle := place_le (Outranks p.countOf) i ((p.ranked i).take topWordNumber)
  have hlen : ((p.ranked i).take topWordNumber).length ≤ topWordNumber := List.length_take_le _ _
  have hfind := findPlace_eq h ((p.ranked i).take topWordNumber) hi
    (fun t ht => mem_ranked.mp (List.mem_of_mem_take ht))
    ((List.pairwise_insertionSort _ _).sublist (List.take_sublist _ _)) (Nat.le_refl _) hle
  rw [rankWord, hfind, ok_bind]
  rw [place_ranked] at hplace
  by_cases hroom : p.Enters i
  · have hlt : place (Outranks p.countOf) i ((p.ranked i).take topWordNumber) < topWordNumber := by
      rw [hplace]
      exact Nat.lt_of_le_of_lt (Nat.min_le_right _ _) hroom
    rw [if_pos hroom, insertAt_eq hlen i hle hlt, ranked_succ, ← orderedInsert_eq_place,
      take_orderedInsert]
  · rw [if_neg hroom]
    rw [Enters, not_lt] at hroom
    rw [hplace, Nat.min_eq_left hroom] at hle ⊢
    exact insertAt_full (Nat.le_antisymm hlen hle) i

lemma rankWords_eq {n : ℕ} (hn : n ≤ p.wordNumber) :
    (List.range n).foldlM p.rankWord [] =
      if ∀ i < n, p.Enters i then .ok ((p.ranked n).take topWordNumber)
      else .error (.outOfRange .topWords topWordNumber topWordNumber) := by
  induction n with
  | zero => rfl
  | succ n ih =>
    rw [List.range_succ, List.foldlM_append, ih (Nat.le_of_succ_le hn)]
    by_cases hn' : ∀ i < n, p.Enters i
    · rw [if_pos hn', ok_bind, List.foldlM_cons, rankWord_eq h hn]
      by_cases hlast : p.Enters n
      · rw [if_pos hlast, if_pos (Nat.forall_lt_succ_right.mpr ⟨hn', hlast⟩)]
        rfl
      · rw [if_neg hlast, if_neg (fun hall => hlast (hall n (Nat.lt_succ_self n)))]
        rfl
    · rw [if_neg hn', if_neg (fun hall => hn' fun i hi => hall i (Nat.lt_succ_of_lt hi))]
      rfl

lemma printWord_eq {topWords : List ℕ} {i t : ℕ} (hi : topWords[i]? = some t)
    (ht : t < p.wordNumber) : p.printWord topWords i =
      .ok (line (p.words.getD t []) (p.counts.getD t 0)) := by
  have hword : fetch Store.words p.words t = .ok (p.words.getD t []) := by
    rw [← h.words_length] at ht
    rw [fetch_of_getElem? (List.getElem?_eq_getElem ht), List.getD_eq_getElem _ _ ht]
  rw [printWord, fetch_of_getElem? hi, ok_bind, hword, ok_bind, fetch_counts h ht]
  rfl

lemma printWords_eq {topWords : List ℕ} (htop : ∀ t ∈ topWords, t < p.wordNumber) :
    (List.range topWords.length).mapM (p.printWord topWords) =
      .ok (topWords.map (fun t => line (p.words.getD t []) (p.counts.getD t 0))) := by
  rw [mapM_eq_ok, List.forall₂_iff_get]
  refine ⟨by rw [List.length_range, List.length_map], fun i hi hi' => ?_⟩
  rw [List.length_map] at hi'
  have hget := List.getElem?_eq_getElem hi'
  simpa using printWord_eq h hget (htop _ (List.mem_of_getElem? hget))

lemma printSummary_eq : p.printSummary =
    if ∀ i < p.wordNumber, p.Enters i then .ok p.summary
    else .error (.outOfRange .topWords topWordNumber topWordNumber) := by
  rw [printSummary, rankWords_eq h (Nat.le_refl _)]
  by_cases hall : ∀ i < p.wordNumber, p.Enters i
  · rw [if_pos hall, if_pos hall, ok_bind,
      printWords_eq h (fun t ht => mem_ranked.mp (List.mem_of_mem_take ht))]
    rfl
  · rw [if_neg hall, if_neg hall]
    rfl

end

theorem ranking_law (lastIndex : ℕ) (calls : List Call) (p : Parser)
    (h : Reachable lastIndex calls p) :
    p.printSummary = .ok p.summary ↔ ∀ i < p.wordNumber, p.Enters i := by
  rw [printSummary_eq h.listed.numbered]
  by_cases hall : ∀ i < p.wordNumber, p.Enters i
  · rw [if_pos hall]
    exact iff_of_true rfl hall
  · rw [if_neg hall]
    exact iff_of_false nofun hall

theorem ranking_law_two : ∃ p, Reachable 5 [.addWord [97], .addWord [98], .addWord [98]] p ∧
    p.printSummary = .ok p.summary := by
  have h : Reachable 5 [.addWord [97], .addWord [98], .addWord [98]] (_ : Parser) :=
    ⟨_, rfl, Runs.run_iff_foldlM.mpr rfl⟩
  exact ⟨_, h, (ranking_law _ _ _ h).mpr (by decide)⟩

theorem ranking_law_fails : ∃ p,
    Reachable 0 ((List.range 20).map (fun i => .addWord [UInt8.ofNat (97 + i)])) p ∧
    p.printSummary ≠ .ok p.summary := by
  -- twenty words and the empty one, each of them once
  refine ⟨_, ⟨_, rfl, Runs.run_iff_foldlM.mpr rfl⟩, fun h => ?_⟩
  cases h

end Parser

end WordModel
