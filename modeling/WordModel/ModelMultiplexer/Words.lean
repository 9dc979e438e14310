import WordModel.Library.Stretches
import WordModel.ModelMultiplexer.Basic
import WordModel.SimpleModel.Modes

/-! The words that the levels of a multiplexer of simple models commit. -/

namespace WordModel.ModelMultiplexer

open Checked WordModel.Parser WordModel.SimpleModel Stretches

def simple : ModelType (Checked.Fault Container) SimpleModel where
  putc := SimpleModel.putc
  interface := SimpleModel.interface

def recorded : ModelType (Checked.Fault Container) (SimpleModel × List Word) where
  putc s c := (((s.1.putc c).1, s.2), (s.1.putc c).2)
  interface s b := do
    let m ← s.1.interface b
    return (m, s.2 ++ s.1.committed (.interface b) m)

lemma recorded_watched : Watched recorded simple Prod.fst where
  putc _ _ := rfl
  interface s b := by
    change s.1.interface b = (do
      let m ← s.1.interface b
      return (m, s.2 ++ s.1.committed (.interface b) m) : Exec Container _).map Prod.fst
    cases s.1.interface b with
    | error e => rfl
    | ok m => rfl

-- A model that is moved into `models_` loses what its move constructor leaves out, which is
-- what its constructor left as it found it.
def construct (founds : List Found) (interface : Bool) :
    Exec Container (ModelMultiplexer SimpleModel) := do
  let models ← founds.mapM (SimpleModel.construct defaultDelimiters)
  return ⟨models, interface⟩

def isDelimiter (c : UInt8) : Bool := tokenizerDelims.contains c

def edit (kept : Word) (c : UInt8) : Word :=
  if c = 0 then kept else if c = 8 then kept.dropLast else kept ++ [c]

def edited (stretch : List UInt8) : Word := stretch.foldl edit []

def words (cs : List UInt8) : List Word :=
  ((closed isDelimiter cs).map edited).filter (fun w => w ≠ [])

def characters (cs : List UInt8) : List Word :=
  (cs.filter (fun c => c ≠ 0 ∧ c ≠ 8)).map (fun c => [c])

def kept (cs : List UInt8) : Word := edited (opened isDelimiter cs)

def commit (w : Word) : List Word := if w = [] then [] else [w]

lemma kept_delimiter {c : UInt8} (hc : isDelimiter c = true) (cs : List UInt8) :
    kept (cs ++ [c]) = [] ∧ words (cs ++ [c]) = words cs ++ commit (kept cs) := by
  obtain ⟨hclosed, hopened⟩ := concat_of_separator hc cs
  refine ⟨by rw [kept, hopened]; rfl, ?_⟩
  rw [words, hclosed, List.map_append, List.filter_append, List.map_singleton, ← kept, ← words,
    commit]
  by_cases hk : kept cs = []
  · simp [hk]
  · simp [hk]

lemma kept_other {c : UInt8} (hc : isDelimiter c = false) (cs : List UInt8) :
    kept (cs ++ [c]) = edit (kept cs) c ∧ words (cs ++ [c]) = words cs := by
  obtain ⟨hclosed, hopened⟩ := concat_of_not hc cs
  constructor
  · rw [kept, hopened, edited, List.foldl_append]
    rfl
  · rw [words, hclosed, words]

lemma kept_plain (cs : List UInt8) : ∀ c ∈ kept cs, isDelimiter c = false := by
  induction cs using List.reverseRecOn with
  | nil => simp [kept, edited, opened]
  | append_singleton cs c ih =>
    by_cases hc : isDelimiter c = true
    · simp [(kept_delimiter hc cs).1]
    · rw [Bool.not_eq_true] at hc
      rw [(kept_other hc cs).1, edit]
      split
      · exact ih
      · split
        · exact fun d hd => ih d ((List.dropLast_sublist _).subset hd)
        · intro d hd
          rcases List.mem_append.mp hd with hd | hd
          · exact ih d hd
          · exact List.mem_singleton.mp hd ▸ hc

lemma characters_concat (cs : List UInt8) (c : UInt8) : characters (cs ++ [c]) =
    characters cs ++ if c = 0 ∨ c = 8 then [] else [[c]] := by
  rw [characters, List.filter_append, List.map_append, ← characters]
  by_cases hzero : c = 0
  · simp [hzero]
  · by_cases height : c = 8
    · simp [height]
    · simp [hzero, height]

structure Holds (input : Word) (log : List Word) (s : SimpleModel × List Word) : Prop where
  tallied : s.1.parser.Tallied (s.2.map .addWord)
  delimiters : s.1.delimiters = defaultDelimiters
  input : s.1.inputString = input
  log : s.2 = log

lemma Holds.commit {input : Word} {log : List Word} {s : SimpleModel × List Word}
    (h : Holds input log s) : ∃ s', recorded.interface s true = .ok s' ∧
      Holds [] (log ++ commit input) s' ∧
      s'.1.detectedInterface = s.1.detectedInterface := by
  obtain ⟨m, log'⟩ := s
  obtain rfl : m.inputString = input := h.input
  obtain rfl : log' = log := h.log
  have htallied := h.tallied
  dsimp only at htallied
  by_cases hne : m.inputString = []
  · have hquiet : m.interface true = .ok m := by simp [SimpleModel.interface, hne]
    refine ⟨(m, log' ++ ModelMultiplexer.commit m.inputString), ?_, ⟨?_, h.delimiters, hne, rfl⟩,
      rfl⟩
    · change (m.interface true >>= _) = _
      rw [hquiet]
      rfl
    · rw [ModelMultiplexer.commit, if_pos hne, List.append_nil]
      exact htallied
  · obtain ⟨m', he, hnew, hinput, hdetected, hdelimiters⟩ := interface_ok htallied hne
    refine ⟨(m', log' ++ ModelMultiplexer.commit m.inputString), ?_,
      ⟨?_, hdelimiters.trans h.delimiters, hinput, rfl⟩, hdetected⟩
    · change (m.interface true >>= _) = _
      rw [he, ok_bind, committed, if_neg hne, ModelMultiplexer.commit, if_neg hne]
      rfl
    · rw [ModelMultiplexer.commit, if_neg hne, List.map_append]
      exact hnew

lemma any_delimiter (w : Word) :
    defaultDelimiters.any (fun d => w == d) = true ↔ ∃ c, w = [c] ∧ isDelimiter c = true := by
  simp only [defaultDelimiters, List.any_eq_true, List.mem_map, beq_iff_eq, isDelimiter,
    List.contains_iff_mem]
  constructor
  · rintro ⟨_, ⟨c, hc, rfl⟩, rfl⟩
    exact ⟨c, rfl, hc⟩
  · rintro ⟨c, rfl, hc⟩
    exact ⟨[c], ⟨c, hc, rfl⟩, rfl⟩

lemma putc_cases (m : SimpleModel) (c : UInt8) :
    m.putc c = detect { m with inputString := edit m.inputString c } ∨
      m.putc c = (m, m.detectedInterface) ∧ edit m.inputString c = m.inputString ∧
        (c = 0 ∨ c = 8 ∧ m.inputString = []) := by
  rw [SimpleModel.putc, edit]
  by_cases hzero : c = 0
  · rw [if_pos hzero, if_pos hzero]
    exact Or.inr ⟨rfl, rfl, Or.inl hzero⟩
  · rw [if_neg hzero, if_neg hzero]
    by_cases height : c = 8
    · rw [if_pos height, if_pos height]
      by_cases hne : m.inputString = []
      · rw [if_neg (by simp [hne])]
        exact Or.inr ⟨rfl, by rw [hne]; rfl, Or.inr ⟨height, hne⟩⟩
      · rw [if_pos (List.length_pos_iff.mpr hne)]
        exact Or.inl rfl
    · rw [if_neg height, if_neg height]
      exact Or.inl rfl

lemma Holds.putc {input : Word} {log : List Word} {s : SimpleModel × List Word}
    (h : Holds input log s) (c : UInt8) :
    Holds (edit input c) log (recorded.putc s c).1 ∧
      (recorded.putc s c).2 = (recorded.putc s c).1.1.detectedInterface ∧
      ((recorded.putc s c).2 = defaultDelimiters.any (fun d => edit input c == d) ∨
        edit input c = input ∧ (recorded.putc s c).2 = s.1.detectedInterface ∧
          (c = 0 ∨ c = 8 ∧ input = [])) := by
  obtain ⟨m, log'⟩ := s
  obtain rfl : m.inputString = input := h.input
  have hdelimiters : m.delimiters = defaultDelimiters := h.delimiters
  have hrecorded : recorded.putc (m, log') c = (((m.putc c).1, log'), (m.putc c).2) := rfl
  rcases putc_cases m c with he | ⟨he, hsame, hc⟩
  · rw [hrecorded, he]
    refine ⟨⟨h.tallied, h.delimiters, rfl, h.log⟩, rfl, Or.inl ?_⟩
    rw [detect]
    dsimp only
    rw [hdelimiters]
    rfl
  · rw [hrecorded, he]
    exact ⟨⟨h.tallied, h.delimiters, hsame.symm, h.log⟩, rfl, Or.inr ⟨hsame, rfl, hc⟩⟩

/-- A level above the lowest one after the characters: a flag that is set, be it stale, finds
nothing to commit. -/
def Level (cs : List UInt8) (m : SimpleModel × List Word) : Prop :=
  Holds (kept cs) (words cs) m ∧ (m.1.detectedInterface = true → kept cs = [])

def Lowest (cs : List UInt8) (m : SimpleModel × List Word) : Prop :=
  Holds [] (characters cs) m ∧ (m.1.detectedInterface = true → kept cs = [])

def Closing (cs : List UInt8) (c : UInt8) : Prop :=
  kept (cs ++ [c]) = [] ∧ words (cs ++ [c]) = words cs ++ commit (kept cs)

lemma isDelimiter_ne {c : UInt8} (hc : isDelimiter c = true) : c ≠ 0 ∧ c ≠ 8 := by
  constructor
  · rintro rfl
    exact absurd hc (by decide)
  · rintro rfl
    exact absurd hc (by decide)

lemma closing_of_kept {cs : List UInt8} {c : UInt8} (hc : isDelimiter c = false)
    (hsame : edit (kept cs) c = kept cs) (hnil : kept cs = []) : Closing cs c := by
  obtain ⟨hkept, hwords⟩ := kept_other hc cs
  refine ⟨by rw [hkept, hsame, hnil], ?_⟩
  rw [hwords, hnil, commit, if_pos rfl, List.append_nil]

lemma edit_nil_of_delimiter {c : UInt8} (hc : isDelimiter c = true) : edit [] c = [c] := by
  obtain ⟨hzero, height⟩ := isDelimiter_ne hc
  rw [edit, if_neg hzero, if_neg height, List.nil_append]

lemma Lowest.putc {cs : List UInt8} {m : SimpleModel × List Word} (h : Lowest cs m) (c : UInt8) :
    ((recorded.putc m c).2 = true → Closing cs c) ∧
      ((recorded.putc m c).2 = false → isDelimiter c = false) := by
  obtain ⟨-, -, hflag | ⟨hsame, hflag, hc⟩⟩ := h.1.putc c
  · rw [hflag]
    constructor
    · intro hany
      obtain ⟨x, hx, hdelimiter⟩ := (any_delimiter _).mp hany
      have hxc : x = c := by
        rw [edit] at hx
        split at hx
        · cases hx
        · split at hx
          · cases hx
          · simpa using hx.symm
      exact kept_delimiter (hxc ▸ hdelimiter) cs
    · intro hany
      by_contra hdelimiter
      rw [Bool.not_eq_false] at hdelimiter
      have hsome := (any_delimiter (edit [] c)).mpr
        ⟨c, edit_nil_of_delimiter hdelimiter, hdelimiter⟩
      exact Bool.false_ne_true (hany.symm.trans hsome)
  · have hplain : isDelimiter c = false := by
      rcases hc with rfl | ⟨rfl, -⟩
      · decide
      · decide
    refine ⟨fun hset => ?_, fun _ => hplain⟩
    have hnil := h.2 (hflag.symm.trans hset)
    exact closing_of_kept hplain (by rw [hnil, hsame]) hnil

lemma Level.putc {cs : List UInt8} {m : SimpleModel × List Word} (h : Level cs m) {c : UInt8}
    (hc : isDelimiter c = false) : Level (cs ++ [c]) (recorded.putc m c).1 ∧
      ((recorded.putc m c).2 = true → Closing cs c) := by
  obtain ⟨hkept, hwords⟩ := kept_other hc cs
  obtain ⟨hholds, hdetected, hflag⟩ := h.1.putc c
  have hclosing (hset : (recorded.putc m c).2 = true) : Closing cs c := by
    rcases hflag with hflag | ⟨hsame, hflag, -⟩
    · obtain ⟨x, hx, hdelimiter⟩ := (any_delimiter _).mp (hflag.symm.trans hset)
      have hplain := kept_plain (cs ++ [c]) x (by rw [hkept, hx]; simp)
      exact absurd hdelimiter (by simp [hplain])
    · exact closing_of_kept hc hsame (h.2 (hflag.symm.trans hset))
  refine ⟨⟨?_, fun hset => (hclosing (hdetected.trans hset)).1⟩, hclosing⟩
  rw [hkept, hwords]
  exact hholds

lemma Level.commit {cs : List UInt8} {m : SimpleModel × List Word} (h : Level cs m) {c : UInt8}
    (hc : Closing cs c) : ∃ m', recorded.interface m true = .ok m' ∧ Level (cs ++ [c]) m' := by
  obtain ⟨m', hm', hholds, -⟩ := h.1.commit
  refine ⟨m', hm', ?_, fun _ => hc.1⟩
  rw [hc.1, hc.2]
  exact hholds

def Committed (levels : ℕ) (cs : List UInt8) (s : ModelMultiplexer (SimpleModel × List Word)) :
    Prop :=
  ∃ m ms, s.models = m :: ms ∧ s.models.length = levels ∧ Lowest cs m ∧ ∀ x ∈ ms, Level cs x

lemma Committed.putc {levels : ℕ} {cs : List UInt8}
    {s : ModelMultiplexer (SimpleModel × List Word)} (h : Committed levels cs s) (c : UInt8) :
    ∃ r, putc recorded s c = .ok r ∧ Committed levels (cs ++ [c]) r.1 := by
  obtain ⟨m, ms, hmodels, hlen, hlowest, hlevels⟩ := h
  obtain ⟨hset, hplain⟩ := hlowest.putc c
  obtain ⟨hholds, hdetected, -⟩ := hlowest.1.putc c
  obtain ⟨m', hm', hcommitted, hkeeps⟩ := hholds.commit
  obtain ⟨ms', interface, he, hlen', hms'⟩ := putcLevels_rule recorded (Q := Level (cs ++ [c]))
    (c := c) hlevels (fun hc x hx => Level.commit hx hc) hset
    (fun hf x hx => Level.putc hx (hplain hf))
  refine ⟨(⟨m' :: ms', interface⟩, interface), ?_, m', ms', rfl, ?_, ⟨?_, fun hf => ?_⟩, hms'⟩
  · rw [ModelMultiplexer.putc, hmodels]
    dsimp only
    rw [hm', he]
    rfl
  · rw [hmodels] at hlen
    simpa [hlen'] using hlen
  · have hcharacters : characters (cs ++ [c]) =
        characters cs ++ ModelMultiplexer.commit (edit [] c) := by
      rw [characters_concat, edit, ModelMultiplexer.commit]
      by_cases hzero : c = 0
      · simp [hzero]
      · by_cases height : c = 8
        · simp [height]
        · simp [hzero, height]
    rw [hcharacters]
    exact hcommitted
  · exact (hset (hdetected.trans (hkeeps.symm.trans hf))).1

lemma Committed.putcs {levels : ℕ} {s : ModelMultiplexer (SimpleModel × List Word)}
    (h : Committed levels [] s) (cs : List UInt8) :
    ∃ s', putcs recorded s cs = .ok s' ∧ Committed levels cs s' := by
  induction cs using List.reverseRecOn with
  | nil => exact ⟨s, rfl, h⟩
  | append_singleton cs c ih =>
    obtain ⟨s', he, hs'⟩ := ih
    obtain ⟨r, hr, hcommitted⟩ := hs'.putc c
    refine ⟨r.1, ?_, hcommitted⟩
    rw [ModelMultiplexer.putcs] at he ⊢
    rw [List.foldlM_append, he]
    change (ModelMultiplexer.putc recorded s' c >>= _) >>= _ = _
    rw [hr]
    rfl

lemma construct_ok (founds : List Found) (interface : Bool) :
    ∃ s, construct founds interface = .ok s ∧ s.models.length = founds.length ∧
      ∀ m ∈ s.models, Holds [] [] (m, []) := by
  suffices hmodels : ∃ ms, founds.mapM (SimpleModel.construct defaultDelimiters) = .ok ms ∧
      ms.length = founds.length ∧ ∀ m ∈ ms, Holds [] [] (m, []) by
    obtain ⟨ms, hms, hlen, hholds⟩ := hmodels
    exact ⟨⟨ms, interface⟩, by rw [construct, hms]; rfl, hlen, hholds⟩
  induction founds with
  | nil => exact ⟨[], rfl, rfl, by simp⟩
  | cons found founds ih =>
    obtain ⟨ms, hms, hlen, hholds⟩ := ih
    obtain ⟨p, hp, htallied⟩ := construct_eq found.lastIndex
    refine ⟨⟨p, [], ∅, defaultDelimiters, found.detectedInterface, [], found.lastPredictionId,
      found.lastPredictionWeight⟩ :: ms, ?_, by simp [hlen], ?_⟩
    · rw [List.mapM_cons, hms, SimpleModel.construct, hp]
      rfl
    · intro m hm
      rcases List.mem_cons.mp hm with rfl | hm
      · exact ⟨htallied, rfl, rfl, rfl⟩
      · exact hholds m hm

theorem words_law (founds : List Found) (hlevels : 2 ≤ founds.length) (interface : Bool)
    (cs : List UInt8) : ∃ s₀ s, construct founds interface = .ok s₀ ∧
      putcs recorded (s₀.view (fun m => (m, []))) cs = .ok s ∧
      putcs simple s₀ cs = .ok (s.view Prod.fst) ∧ s.models.length = founds.length ∧
      ∀ i m, s.models[i]? = some m → m.2 = (if i = 0 then characters cs else words cs) ∧
        m.1.parser.Tallied (m.2.map .addWord) := by
  obtain ⟨s₀, hs₀, hlen, hholds⟩ := construct_ok founds interface
  obtain ⟨m₀, ms₀, hmodels⟩ : ∃ m ms, s₀.models = m :: ms := by
    apply List.exists_cons_of_ne_nil
    rintro hnil
    rw [hnil, List.length_nil] at hlen
    omega
  have hstart : Committed founds.length [] (s₀.view (fun m => (m, []))) := by
    refine ⟨(m₀, []), ms₀.map (fun m => (m, [])), by rw [view, hmodels, List.map_cons],
      by rw [view, List.length_map, hlen], ⟨hholds m₀ (by simp [hmodels]), fun _ => rfl⟩, ?_⟩
    intro x hx
    obtain ⟨m, hm, rfl⟩ := List.mem_map.mp hx
    exact ⟨hholds m (by simp [hmodels, hm]), fun _ => rfl⟩
  obtain ⟨s, hs, m, ms, hsm, hslen, hlowest, hlevel⟩ := hstart.putcs cs
  have hview : (s₀.view (fun m => (m, ([] : List Word)))).view Prod.fst = s₀ := by
    have hmap : (s₀.models.map (fun m => (m, ([] : List Word)))).map Prod.fst = s₀.models := by
      rw [List.map_map]
      exact List.map_id _
    rw [view, view, hmap]
  have hplain := recorded_watched.putcs (s₀.view (fun m => (m, []))) cs
  rw [hview, hs] at hplain
  refine ⟨s₀, s, hs₀, hs, hplain, hslen, fun i x hx => ?_⟩
  rw [hsm] at hx
  cases i with
  | zero =>
    obtain rfl : m = x := by simpa using hx
    exact ⟨hlowest.1.log, hlowest.1.tallied⟩
  | succ i =>
    have hx := (hlevel x (List.mem_of_getElem? hx)).1
    exact ⟨hx.log, hx.tallied⟩

theorem words_law_three : ∃ s : ModelMultiplexer (SimpleModel × List Word),
    s.models.length = 3 ∧ ∀ i m, s.models[i]? = some m →
      m.2 = (if i = 0 then characters [97, 32] else words [97, 32]) ∧
        m.1.parser.Tallied (m.2.map .addWord) := by
  obtain ⟨_, s, _, _, _, hlen, hwords⟩ := words_law
    [⟨7, true, 3, 5⟩, ⟨1, false, 0, 0⟩, ⟨2, true, 9, 4⟩] (by decide) true [97, 32]
  exact ⟨s, hlen, hwords⟩

end WordModel.ModelMultiplexer
