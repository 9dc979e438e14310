import WordModel.SimpleModel.Basic
import Mathlib.Data.List.MinMax

/-! What the model predicts after a word is the word that has followed it most often. -/

namespace WordModel.SimpleModel

open Checked WordModel.Parser

def followedBy (log : List Word) (w : Word) : List Word := followers (log.zip log.tail) w

/-- The most frequent of the words, the first one of several. -/
def mostFrequent (vs : List Word) : Option Word := vs.argmax (fun v => vs.count v)

lemma followedBy_concat (log : List Word) (v w : Word) : followedBy (log ++ [v]) w =
    followedBy log w ++ if log.getLast? = some w then [v] else [] := by
  have hzip (x : Word) : ∀ rest : List Word,
      (x :: rest ++ [v]).zip (rest ++ [v]) = (x :: rest).zip rest ++
        [((x :: rest).getLast (List.cons_ne_nil x rest), v)] := by
    intro rest
    induction rest generalizing x with
    | nil => rfl
    | cons y rest ih =>
      have hy := ih y
      rw [List.cons_append] at hy
      rw [List.cons_append, List.cons_append, List.zip_cons_cons, hy, List.zip_cons_cons,
        List.getLast_cons (List.cons_ne_nil y rest)]
      rfl
  cases log with
  | nil => rfl
  | cons x rest =>
    rw [followedBy, List.cons_append, List.tail_cons, ← List.cons_append, hzip, followers_concat,
      List.getLast?_eq_some_getLast (List.cons_ne_nil x rest)]
    simp only [Option.some.injEq]
    rfl

lemma argmax_map {α β : Type} {f : α → ℕ} {g : β → ℕ} {e : β → α} {vs : List β}
    (h : ∀ v ∈ vs, f (e v) = g v) : (vs.map e).argmax f = (vs.argmax g).map e := by
  induction vs using List.reverseRecOn with
  | nil => rfl
  | append_singleton vs v ih =>
    rw [List.map_append, List.map_singleton, List.argmax_concat, List.argmax_concat,
      ih (fun u hu => h u (by simp [hu]))]
    cases hm : vs.argmax g with
    | none => rfl
    | some u =>
      have hu := h u (by simp [List.argmax_mem hm])
      have hv := h v (by simp)
      simp only [Option.map_some, hu, hv]
      split <;> rfl

def mode (p : Parser) (i : ℕ) : Option ℕ :=
  (p.nonzeroPairs.getD i []).argmax (fun j => (p.countPairAt i j).toNat)

def modeOf (p : Parser) (w : Word) : Option Word :=
  ((p.getIndex w).bind (mode p)).map (fun j => p.words.getD j [])

/-- Every word that has followed `w` has a count: none has come round to zero. -/
def Counted (p : Parser) (w : Word) : Prop :=
  ∀ i, p.words[i]? = some w → ∀ j ∈ p.nonzeroPairs.getD i [], 0 < p.countPairAt i j

section Training

variable {p : Parser} (h : p.Numbered)

include h

lemma readWord_eq {i : ℕ} (hi : i < p.wordNumber) (w : Word) :
    readWord p i w = .ok (p.words.getD i []) := by
  have hlt := hi
  rw [← h.words_length] at hlt
  rw [readWord, getWord, if_neg (by omega), fetch_of_getElem? (List.getElem?_eq_getElem hlt),
    List.getD_eq_getElem _ _ hlt]
  rfl

lemma trainPair_eq {i j : ℕ} (hi : i < p.wordNumber) (hj : j < p.wordNumber) (t : Training) :
    trainPair p i t j = .ok (if t.count < p.countPairAt i j then
      ⟨t.wordModes.insert (p.words.getD i []) (p.words.getD j []), p.countPairAt i j,
        p.words.getD i [], p.words.getD j []⟩
      else t) := by
  rw [trainPair, readWord_eq h hi, ok_bind, readWord_eq h hj, ok_bind]
  split
  · rfl
  · rfl

lemma trainPairs_eq {i : ℕ} (hi : i < p.wordNumber) {js : List ℕ}
    (hjs : ∀ j ∈ js, j < p.wordNumber ∧ 0 < p.countPairAt i j) {t : Training} (ht : t.count = 0) :
    ∃ t', js.foldlM (trainPair p i) t = .ok t' ∧
      t'.count = (js.argmax (fun j => (p.countPairAt i j).toNat)).elim 0 (p.countPairAt i) ∧
      t'.wordModes = (js.argmax (fun j => (p.countPairAt i j).toNat)).elim t.wordModes
        (fun j => t.wordModes.insert (p.words.getD i []) (p.words.getD j [])) := by
  induction js using List.reverseRecOn with
  | nil => exact ⟨t, rfl, ht, rfl⟩
  | append_singleton js j ih =>
    obtain ⟨t', he, hcount, hmodes⟩ := ih (fun k hk => hjs k (by simp [hk]))
    obtain ⟨hj, hpos⟩ := hjs j (by simp)
    rw [List.foldlM_append, he, ok_bind, List.foldlM_cons, trainPair_eq h hi hj, ok_bind,
      List.argmax_concat]
    cases hm : js.argmax (fun j => (p.countPairAt i j).toNat) with
    | none =>
      rw [hm, Option.elim_none] at hcount hmodes
      rw [hcount, if_pos hpos, hmodes]
      exact ⟨_, rfl, rfl, rfl⟩
    | some k =>
      rw [hm, Option.elim_some] at hcount hmodes
      dsimp only
      by_cases hlt : p.countPairAt i k < p.countPairAt i j
      · rw [hcount, if_pos hlt, if_pos (UInt32.lt_iff_toNat_lt.mp hlt)]
        refine ⟨_, rfl, rfl, ?_⟩
        rw [hmodes]
        exact AList.insert_insert _
      · rw [hcount, if_neg hlt, if_neg (fun hn => hlt (UInt32.lt_iff_toNat_lt.mpr hn))]
        exact ⟨t', rfl, hcount, hmodes⟩

lemma iteratePairs_eq {i : ℕ} (hi : i < p.wordNumber) :
    p.iteratePairs i = .ok (p.nonzeroPairs.getD i []) := by
  rw [← h.nonzeroPairs_length] at hi
  rw [iteratePairs, fetch_of_getElem? (List.getElem?_eq_getElem hi), List.getD_eq_getElem _ _ hi]

lemma trainPairs_ok {i : ℕ} (hi : i < p.wordNumber) {js : List ℕ}
    (hjs : ∀ j ∈ js, j < p.wordNumber) (t : Training) :
    ∃ t', js.foldlM (trainPair p i) t = .ok t' :=
  foldlM_exists (fun t j hj => ⟨_, trainPair_eq h hi (hjs j hj) t⟩) t

lemma trainPairs_ne {i : ℕ} (hi : i < p.wordNumber) {js : List ℕ}
    (hjs : ∀ j ∈ js, j < p.wordNumber) {w : Word} (hw : p.words.getD i [] ≠ w) (t : Training) :
    ∃ t', js.foldlM (trainPair p i) t = .ok t' ∧
      t'.wordModes.lookup w = t.wordModes.lookup w := by
  induction js generalizing t with
  | nil => exact ⟨t, rfl, rfl⟩
  | cons j js ih =>
    have ht := ih (fun k hk => hjs k (List.mem_cons_of_mem j hk))
    rw [List.foldlM_cons, trainPair_eq h hi (hjs j (by simp)), ok_bind]
    split
    · obtain ⟨t', he, hmodes⟩ := ht _
      exact ⟨t', he, hmodes.trans (AList.lookup_insert_ne (Ne.symm hw))⟩
    · exact ht t

lemma trainWord_eq {i : ℕ} (hi : i < p.wordNumber)
    (hrow : ∀ j ∈ p.nonzeroPairs.getD i [], j < p.wordNumber) {w : Word}
    (hpos : Counted p w) (t : Training) : ∃ t', trainWord p t i = .ok t' ∧ t'.wordModes.lookup w =
      (if p.words[i]? = some w then modeOf p w else none).or (t.wordModes.lookup w) := by
  have hword : p.words[i]? = some (p.words.getD i []) := by
    rw [← h.words_length] at hi
    rw [List.getD_eq_getElem _ _ hi, List.getElem?_eq_getElem hi]
  rw [trainWord, iteratePairs_eq h hi, ok_bind]
  by_cases hw : p.words.getD i [] = w
  · subst hw
    obtain ⟨t', he, -, hmodes⟩ := trainPairs_eq h hi (fun j hj => ⟨hrow j hj, hpos i hword j hj⟩)
      (t := { t with count := 0 }) rfl
    refine ⟨t', he, ?_⟩
    rw [hmodes, ← mode, if_pos hword, modeOf, getIndex, (h.lookup _ _).mpr hword, Option.bind_some]
    cases mode p i with
    | none => rfl
    | some j =>
      rw [Option.elim_some, AList.lookup_insert]
      rfl
  · obtain ⟨t', he, hmodes⟩ := trainPairs_ne h hi hrow hw { t with count := 0 }
    refine ⟨t', he, ?_⟩
    rw [hmodes, hword, if_neg (fun hs => hw (Option.some.inj hs)), Option.none_or]

lemma trainWords_eq {w : Word}
    (hrows : ∀ i < p.wordNumber, ∀ j ∈ p.nonzeroPairs.getD i [], j < p.wordNumber)
    (hpos : Counted p w) (t : Training) {k : ℕ} (hk : k ≤ p.wordNumber) :
    ∃ t', (List.range k).foldlM (trainWord p) t = .ok t' ∧ t'.wordModes.lookup w =
      (if w ∈ p.words.take k then modeOf p w else none).or (t.wordModes.lookup w) := by
  induction k with
  | zero => exact ⟨t, rfl, by simp⟩
  | succ k ih =>
    obtain ⟨t', he, hmodes⟩ := ih (Nat.le_of_succ_le hk)
    obtain ⟨t'', he', hmodes'⟩ := trainWord_eq h hk (hrows k hk) hpos t'
    rw [List.range_succ, List.foldlM_append, he, ok_bind, List.foldlM_cons, he', ok_bind]
    refine ⟨t'', rfl, ?_⟩
    have hmem : w ∈ p.words.take (k + 1) ↔ w ∈ p.words.take k ∨ p.words[k]? = some w := by
      simp [List.take_add_one]
    rw [hmodes', hmodes]
    by_cases hlast : p.words[k]? = some w
    · simp only [hmem, hlast, if_true, or_true]
      split
      · rw [← Option.or_assoc, Option.or_self]
      · rw [Option.none_or]
    · simp only [hmem, hlast, if_false, or_false, Option.none_or]

end Training

lemma doTrain_ok {calls : List Parser.Call} {m : SimpleModel} (h : m.parser.Tallied calls) :
    ∃ modes, doTrain m = .ok { m with wordModes := modes } ∧
      ∀ w, Counted m.parser w → modes.lookup w =
        (if w ∈ m.parser.words then modeOf m.parser w else none).or (m.wordModes.lookup w) := by
  have hrows (i : ℕ) (_ : i < m.parser.wordNumber) (j : ℕ)
      (hj : j ∈ m.parser.nonzeroPairs.getD i []) : j < m.parser.wordNumber := h.follower_lt hj
  have hall (t : Training) : ∀ i ∈ List.range m.parser.wordNumber,
      ∃ t', trainWord m.parser t i = .ok t' := by
    intro i hi
    have hlt := List.mem_range.mp hi
    rw [trainWord, iteratePairs_eq h.numbered hlt, ok_bind]
    exact trainPairs_ok h.numbered hlt (hrows i hlt) _
  obtain ⟨t, ht⟩ := foldlM_exists hall ⟨m.wordModes, 0, [], []⟩
  refine ⟨t.wordModes, by rw [doTrain, ht]; rfl, fun w hpos => ?_⟩
  obtain ⟨t', ht', hmodes⟩ := trainWords_eq h.numbered hrows hpos ⟨m.wordModes, 0, [], []⟩
    (Nat.le_refl _)
  rw [← h.numbered.words_length, List.take_length] at hmodes
  obtain rfl := Except.ok.inj (ht.symm.trans ht')
  exact hmodes

lemma interface_quiet {m : SimpleModel} {b : Bool} (h : ¬ (b = true ∧ m.inputString ≠ [])) :
    m.interface b = .ok m := by
  rw [SimpleModel.interface, if_neg]
  simpa [List.length_pos_iff] using h

lemma interface_eq {calls : List Parser.Call} {m : SimpleModel} (h : m.parser.Tallied calls)
    (hne : m.inputString ≠ []) : ∃ p modes, p.Tallied (calls ++ [.addWord m.inputString]) ∧
      m.interface true = .ok { m with
        parser := p
        prediction := (AList.lookup m.inputString modes).getD []
        wordModes := modes.insert m.inputString ((modes.lookup m.inputString).getD [])
        lastPredictionWeight :=
          p.countPair m.inputString ((modes.lookup m.inputString).getD [])
        inputString := [] } ∧
      ∀ w, Counted p w → modes.lookup w =
        (if w ∈ p.words then modeOf p w else none).or (m.wordModes.lookup w) := by
  obtain ⟨p, hp, hnew⟩ := h.step (c := .addWord m.inputString) hne
  obtain ⟨modes, htrain, hmodes⟩ := doTrain_ok (m := { m with parser := p }) hnew
  have hadd : m.parser.addWord m.inputString = .ok p := hp
  refine ⟨p, modes, hnew, ?_, hmodes⟩
  rw [SimpleModel.interface, if_pos (by simp [List.length_pos_iff.mpr hne]), hadd, ok_bind, htrain]
  rfl

lemma interface_ok {calls : List Parser.Call} {m : SimpleModel} (h : m.parser.Tallied calls)
    (hne : m.inputString ≠ []) : ∃ m', m.interface true = .ok m' ∧
      m'.parser.Tallied (calls ++ [.addWord m.inputString]) ∧ m'.inputString = [] ∧
      m'.detectedInterface = m.detectedInterface ∧ m'.delimiters = m.delimiters := by
  obtain ⟨p, modes, hnew, he, -⟩ := interface_eq h hne
  exact ⟨_, he, hnew, rfl, rfl, rfl⟩

lemma lastAdded_log (index : Word → ℕ) (log : List Word) :
    lastAdded index (log.map .addWord) = log.getLast?.elim 0 index := by
  induction log using List.reverseRecOn with
  | nil => rfl
  | append_singleton log v _ =>
    rw [List.map_append, List.map_singleton, lastAdded_concat, List.getLast?_concat]
    rfl

lemma followers_pairs {index : Word → ℕ} {log : List Word} {w : Word} (hzero : index w ≠ 0)
    (hinj : ∀ v ∈ log, index v = index w ↔ v = w) :
    followers (pairs index (log.map .addWord)) (index w) = (followedBy log w).map index := by
  induction log using List.reverseRecOn with
  | nil => rfl
  | append_singleton log v ih =>
    have hlast : previous index (log.map .addWord) (.addWord v) = index w ↔
        log.getLast? = some w := by
      rw [previous, lastAdded_log]
      cases hl : log.getLast? with
      | none => simp [Ne.symm hzero]
      | some u => simpa using hinj u (by simp [List.mem_of_getLast? hl])
    rw [List.map_append, List.map_singleton, pairs_concat, followers_concat, followedBy_concat,
      List.map_append, ih (fun u hu => hinj u (by simp [hu])), List.append_cancel_left_eq]
    simp only [hlast]
    split <;> rfl

lemma followedBy_subset {log : List Word} {v w : Word} (hv : v ∈ followedBy log w) : v ∈ log := by
  obtain ⟨q, hq, rfl⟩ := List.mem_map.mp hv
  exact List.mem_of_mem_tail (List.of_mem_zip (List.mem_filter.mp hq).1).2

lemma mem_of_followedBy {log : List Word} {w : Word} (h : followedBy log w ≠ []) : w ∈ log := by
  obtain ⟨v, hv⟩ := List.exists_mem_of_ne_nil _ h
  obtain ⟨⟨u, x⟩, hq, -⟩ := List.mem_map.mp hv
  obtain ⟨hmem, hu⟩ := List.mem_filter.mp hq
  obtain rfl : u = w := by simpa using hu
  exact (List.of_mem_zip hmem).1

lemma followedBy_length_le (log : List Word) (w : Word) : (followedBy log w).length ≤ log.length := by
  rw [followedBy, followers, List.length_map]
  refine Nat.le_trans (List.length_filter_le _ _) ?_
  rw [List.length_zip]
  exact Nat.min_le_left _ _

section Log

variable {log : List Word} {p : Parser} (h : p.Tallied (log.map .addWord))

include h

lemma mem_words_of_mem {w : Word} (hw : w ∈ log) : w ∈ p.words :=
  (h.known w).mpr (Or.inr (List.mem_map.mpr ⟨.addWord w, List.mem_map_of_mem hw, rfl⟩))

lemma index_inj {v w : Word} (hv : v ∈ p.words) (hw : w ∈ p.words) :
    p.index v = p.index w ↔ v = w := by
  refine ⟨fun he => ?_, fun he => by rw [he]⟩
  have hvi := (h.numbered.lookup v _).mp (h.numbered.lookup_index hv)
  have hwi := (h.numbered.lookup w _).mp (h.numbered.lookup_index hw)
  rw [he, hwi] at hvi
  exact (Option.some.inj hvi).symm

lemma index_ne_zero {w : Word} (hw : w ∈ p.words) (hne : w ≠ []) : p.index w ≠ 0 := by
  intro hzero
  have hget := (h.numbered.lookup w _).mp (h.numbered.lookup_index hw)
  rw [hzero, h.first] at hget
  exact hne (Option.some.inj hget).symm

lemma followers_index {w : Word} (hw : w ∈ p.words) (hne : w ≠ []) :
    p.nonzeroPairs.getD (p.index w) [] = (followedBy log w).map p.index := by
  rw [h.nonzeroPairs]
  exact followers_pairs (index_ne_zero h hw hne)
    (fun v hv => index_inj h (mem_words_of_mem h hv) hw)

lemma count_index {v w : Word} (hv : v ∈ p.words) :
    ((followedBy log w).map p.index).count (p.index v) = (followedBy log w).count v := by
  rw [List.count, List.countP_map, List.count]
  apply List.countP_congr
  intro u hu
  simpa using index_inj h (mem_words_of_mem h (followedBy_subset hu)) hv

lemma countPairAt_index {v w : Word} (hlt : (followedBy log w).length < 2 ^ 32) (hw : w ∈ p.words)
    (hne : w ≠ []) (hv : v ∈ p.words) :
    (p.countPairAt (p.index w) (p.index v)).toNat = (followedBy log w).count v := by
  rw [h.pairCounts, ← count_followers, ← h.nonzeroPairs, followers_index h hw hne,
    count_index h hv, UInt32.toNat_ofNat_of_lt' (Nat.lt_of_le_of_lt List.count_le_length hlt)]

lemma modeOf_eq {w : Word} (hlt : (followedBy log w).length < 2 ^ 32) (hw : w ∈ p.words)
    (hne : w ≠ []) : modeOf p w = mostFrequent (followedBy log w) := by
  have hcount : ∀ v ∈ followedBy log w,
      (p.countPairAt (p.index w) (p.index v)).toNat = (followedBy log w).count v := by
    intro v hv
    exact countPairAt_index h hlt hw hne (mem_words_of_mem h (followedBy_subset hv))
  have hwords : ∀ v ∈ followedBy log w, p.words.getD (p.index v) [] = v := by
    intro v hv
    have hmem := mem_words_of_mem h (followedBy_subset hv)
    have hget := (h.numbered.lookup v _).mp (h.numbered.lookup_index hmem)
    rw [List.getD_eq_getElem?_getD, hget]
    rfl
  have hargmax : ((followedBy log w).map p.index).argmax
      (fun j => (p.countPairAt (p.index w) j).toNat) =
      (mostFrequent (followedBy log w)).map p.index := argmax_map hcount
  rw [modeOf, getIndex, h.numbered.lookup_index hw, Option.bind_some, mode,
    followers_index h hw hne, hargmax, Option.map_map]
  cases hm : mostFrequent (followedBy log w) with
  | none => rfl
  | some v => exact congrArg some (hwords v (List.argmax_mem hm))

lemma counted_of_lt {w : Word} (hne : w ≠ []) (hlt : (followedBy log w).length < 2 ^ 32) :
    Counted p w := by
  intro i hi j hj
  have hw : w ∈ p.words := List.mem_of_getElem? hi
  have hindex : p.index w = i := by
    rw [index, getIndex, (h.numbered.lookup w i).mpr hi]
    rfl
  rw [← hindex, followers_index h hw hne] at hj
  obtain ⟨v, hv, rfl⟩ := List.mem_map.mp hj
  rw [← hindex, UInt32.lt_iff_toNat_lt,
    countPairAt_index h hlt hw hne (mem_words_of_mem h (followedBy_subset hv))]
  exact List.count_pos_iff.mpr hv

end Log

structure Trained (m : SimpleModel) (log : List Word) : Prop where
  tallied : m.parser.Tallied (log.map .addWord)
  nonempty : ∀ w ∈ log, w ≠ []
  idle : ∀ w ≠ [], followedBy log w = [] → (m.wordModes.lookup w).getD [] = []

lemma construct_trained (delimiters : List Word) (found : Found) :
    ∃ m, construct delimiters found = .ok m ∧ m.Trained [] := by
  obtain ⟨p, hp, htallied⟩ := construct_eq found.lastIndex
  refine ⟨⟨p, [], ∅, delimiters, found.detectedInterface, [], found.lastPredictionId,
    found.lastPredictionWeight⟩, ?_, htallied, by simp, fun w _ _ => rfl⟩
  rw [construct, hp]
  rfl

lemma Trained.putc {m : SimpleModel} {log : List Word} (h : m.Trained log) (c : UInt8) :
    (m.putc c).1.Trained log := by
  have hsame : (m.putc c).1.parser = m.parser ∧ (m.putc c).1.wordModes = m.wordModes := by
    rw [SimpleModel.putc]
    split
    · exact ⟨rfl, rfl⟩
    · split
      · split
        · exact ⟨rfl, rfl⟩
        · exact ⟨rfl, rfl⟩
      · exact ⟨rfl, rfl⟩
  exact ⟨hsame.1 ▸ h.tallied, h.nonempty, hsame.2 ▸ h.idle⟩

lemma followedBy_prefix (log : List Word) (v w : Word) :
    followedBy log w <+: followedBy (log ++ [v]) w := by
  rw [followedBy_concat]
  exact List.prefix_append _ _

lemma Trained.lookup_trained {m : SimpleModel} {log : List Word} (h : m.Trained log) {w : Word}
    {p : Parser} (htallied : p.Tallied ((log ++ [w]).map .addWord))
    {modes : AList fun _ : Word => Word}
    (hmodes : ∀ v, Counted p v → modes.lookup v =
      (if v ∈ p.words then modeOf p v else none).or (m.wordModes.lookup v)) {v : Word}
    (hv : v ≠ []) (hlt : (followedBy (log ++ [w]) v).length < 2 ^ 32) :
    (modes.lookup v).getD [] = (mostFrequent (followedBy (log ++ [w]) v)).getD [] := by
  have hidle (hnil : followedBy (log ++ [w]) v = []) : (m.wordModes.lookup v).getD [] = [] :=
    h.idle v hv (List.prefix_nil.mp (hnil ▸ followedBy_prefix log w v))
  rw [hmodes v (counted_of_lt htallied hv hlt)]
  by_cases hmem : v ∈ p.words
  · rw [if_pos hmem, modeOf_eq htallied hlt hmem hv]
    cases hm : mostFrequent (followedBy (log ++ [w]) v) with
    | none =>
      rw [Option.none_or]
      exact hidle (List.argmax_eq_none.mp hm)
    | some u => rfl
  · have hnil : followedBy (log ++ [w]) v = [] := by
      by_contra hsome
      exact hmem (mem_words_of_mem htallied (mem_of_followedBy hsome))
    rw [if_neg hmem, Option.none_or, hidle hnil, hnil]
    rfl

lemma Trained.commit {m : SimpleModel} {log : List Word} (h : m.Trained log)
    (hne : m.inputString ≠ []) :
    ∃ m', m.interface true = .ok m' ∧ m'.Trained (log ++ [m.inputString]) ∧
      m'.inputString = [] ∧
      ((followedBy (log ++ [m.inputString]) m.inputString).length < 2 ^ 32 →
        m'.prediction =
          (mostFrequent (followedBy (log ++ [m.inputString]) m.inputString)).getD [] ∧
        m'.lastPredictionWeight.toNat =
          (followedBy (log ++ [m.inputString]) m.inputString).count m'.prediction) := by
  obtain ⟨p, modes, htallied, he, hmodes⟩ := interface_eq h.tallied hne
  generalize m.inputString = w at *
  have hlog : log.map Call.addWord ++ [.addWord w] = (log ++ [w]).map Call.addWord := by simp
  rw [hlog] at htallied
  have hlookup (v : Word) (hv : v ≠ []) := h.lookup_trained htallied hmodes hv
  refine ⟨_, he, ⟨htallied, ?_, ?_⟩, rfl, fun hlt => ⟨hlookup w hne hlt, ?_⟩⟩
  · intro v hv
    rcases List.mem_append.mp hv with hv | hv
    · exact h.nonempty v hv
    · exact List.mem_singleton.mp hv ▸ hne
  · intro v hv hnil
    have hold : (modes.lookup v).getD [] = [] := by
      rw [hlookup v hv (by rw [hnil]; decide), hnil]
      rfl
    dsimp only
    by_cases hvw : v = w
    · subst hvw
      rwa [AList.lookup_insert, Option.getD_some]
    · rwa [AList.lookup_insert_ne hvw]
  · have hmem : w ∈ p.words := mem_words_of_mem htallied (by simp)
    have hprediction : (modes.lookup w).getD [] ∈ p.words := by
      rw [hlookup w hne hlt]
      cases hm : mostFrequent (followedBy (log ++ [w]) w) with
      | none => exact (htallied.known []).mpr (Or.inl rfl)
      | some u => exact mem_words_of_mem htallied (followedBy_subset (List.argmax_mem hm))
    dsimp only
    rw [countPair, htallied.numbered.lookup_index hmem, htallied.numbered.lookup_index hprediction]
    exact countPairAt_index htallied hlt hmem hne hprediction

lemma Reached.trained {delimiters : List Word} {found : Found} {calls : List Call}
    {s : SimpleModel × List Word} (h : Reached delimiters found calls s) : s.1.Trained s.2 := by
  obtain ⟨m₀, hm₀, hrun⟩ := h
  obtain ⟨m, hm, htrained⟩ := construct_trained delimiters found
  obtain rfl := Except.ok.inj (hm.symm.trans hm₀)
  refine Runs.Run.traced_invariant (P := fun s : SimpleModel × List Word => s.1.Trained s.2) hrun
    ?_ htrained
  intro s log c t hs _ hstep
  dsimp only at hs ⊢
  cases c with
  | putc c =>
    obtain rfl := Except.ok.inj hstep
    have hnone : committed s (.putc c) (s.putc c).1 = [] := rfl
    rw [hnone, List.append_nil]
    exact hs.putc c
  | interface b =>
    by_cases hc : b = true ∧ s.inputString ≠ []
    · obtain ⟨rfl, hne⟩ := hc
      rw [committed, if_neg hne]
      obtain ⟨t', ht', hnew, -⟩ := hs.commit hne
      obtain rfl := Except.ok.inj (ht'.symm.trans hstep)
      exact hnew
    · have hnone : committed s (.interface b) t = [] := by
        cases b with
        | false => rfl
        | true => exact if_pos (by simpa using hc)
      rw [step, interface_quiet hc] at hstep
      obtain rfl := Except.ok.inj hstep
      rw [hnone, List.append_nil]
      exact hs

theorem modes_law (delimiters : List Word) (found : Found) (calls : List Call) (m : SimpleModel)
    (log : List Word) (h : Reached delimiters found calls (m, log))
    (hlt : log.length + 1 < 2 ^ 32) (hne : m.inputString ≠ []) :
    let vs := followedBy (log ++ [m.inputString]) m.inputString
    ∃ m', m.interface true = .ok m' ∧
      (vs = [] → m'.prediction = [] ∧ m'.lastPredictionWeight = 0) ∧
      (vs ≠ [] → m'.prediction ∈ vs ∧
        (∀ v ∈ vs, vs.count v ≤ vs.count m'.prediction ∧
          (vs.count v = vs.count m'.prediction → vs.idxOf m'.prediction ≤ vs.idxOf v)) ∧
        m'.lastPredictionWeight.toNat = vs.count m'.prediction) := by
  intro vs
  have hvs : vs.length < 2 ^ 32 := by
    refine Nat.lt_of_le_of_lt (followedBy_length_le _ _) ?_
    rwa [List.length_append, List.length_singleton]
  obtain ⟨m', hm', -, -, hmode⟩ := h.trained.commit hne
  obtain ⟨hprediction, hweight⟩ := hmode hvs
  refine ⟨m', hm', fun hnil => ?_, fun hsome => ?_⟩
  · change m'.prediction = (mostFrequent vs).getD [] at hprediction
    change m'.lastPredictionWeight.toNat = vs.count m'.prediction at hweight
    rw [hnil] at hprediction hweight
    exact ⟨hprediction, UInt32.toNat_inj.mp hweight⟩
  · obtain ⟨u, hu⟩ : ∃ u, mostFrequent vs = some u := by
      rw [← Option.ne_none_iff_exists']
      exact fun hnone => hsome (List.argmax_eq_none.mp hnone)
    obtain rfl : m'.prediction = u := hprediction.trans (congrArg (·.getD []) hu)
    obtain ⟨hmem, hmost, hfirst⟩ := List.argmax_eq_some_iff.mp hu
    refine ⟨hmem, fun v hv => ⟨hmost v hv, fun he => ?_⟩, hweight⟩
    have hle := hfirst v hv (Nat.le_of_eq he.symm)
    rwa [lawful_beq_subsingleton instBEqOfDecidableEq (List.instBEq : BEq Word)] at hle

theorem modes_law_two :
    ∃ m log m', Reached defaultDelimiters ⟨7, true, 3, 5⟩
        [.putc 97, .interface true, .putc 98, .interface true, .putc 97] (m, log) ∧
      m.interface true = .ok m' ∧ m'.prediction = [98] := by
  have h : Reached defaultDelimiters ⟨7, true, 3, 5⟩
      [.putc 97, .interface true, .putc 98, .interface true, .putc 97]
      (_ : SimpleModel × List Word) :=
    ⟨_, rfl, .cons trivial rfl (.cons trivial rfl (.cons trivial rfl (.cons trivial rfl
      (.cons trivial rfl .nil))))⟩
  obtain ⟨m', hm', -, hmost⟩ := modes_law _ _ _ _ _ h (by decide) (List.cons_ne_nil 97 [])
  exact ⟨_, _, m', h, hm', List.mem_singleton.mp (hmost (List.cons_ne_nil [98] [])).1⟩

end WordModel.SimpleModel
