import WordModel.BoundedCTModel.Regrets
import WordModel.ContextTree.Learning

/-! The tree of a model that only hears words, as a table of the n-grams it got wrong. -/

namespace WordModel.BoundedCTModel

open Checked ContextTree Follow

variable (p : Platform)

/-- The last `bound` words before a step, newest first. -/
def contextBefore (bound : ℕ) (log : List Commit) (k : ℕ) : List Word :=
  ((log.take k).map (·.word)).reverse.take bound

/-- The table: the word of each mistaken step but the first, and the context before it. -/
def mistakenSteps (bound : ℕ) (log : List Commit) : List (Word × List Word) :=
  (List.range log.length).filterMap (fun k => (log[k]?).bind (fun e =>
    if 0 < k ∧ e.mistaken = true then some (e.word, contextBefore bound log k) else none))

lemma contextBefore_concat (bound : ℕ) (log : List Commit) (e : Commit) {k : ℕ}
    (hk : k ≤ log.length) : contextBefore bound (log ++ [e]) k = contextBefore bound log k := by
  rw [contextBefore, contextBefore, List.take_append_of_le_length hk]

lemma contextBefore_last (bound : ℕ) (log : List Commit) (e : Commit) :
    contextBefore bound (log ++ [e]) (log ++ [e]).length =
      (e.word :: contextBefore bound log log.length).take bound := by
  rw [contextBefore, contextBefore, List.take_length, List.take_length, List.map_append,
    List.map_singleton, List.reverse_append, List.reverse_singleton, List.singleton_append]
  cases bound with
  | zero => rfl
  | succ n => rw [List.take_succ_cons, List.take_succ_cons, List.take_take,
      Nat.min_eq_left (Nat.le_succ n)]

lemma mistakenSteps_concat (bound : ℕ) (log : List Commit) (e : Commit) :
    mistakenSteps bound (log ++ [e]) = mistakenSteps bound log ++
      if log ≠ [] ∧ e.mistaken = true then [(e.word, contextBefore bound log log.length)]
      else [] := by
  rw [mistakenSteps, List.length_append, List.length_singleton, List.range_succ,
    List.filterMap_append]
  congr 1
  · apply List.filterMap_congr
    intro k hk
    rw [List.mem_range] at hk
    rw [List.getElem?_append_left hk, contextBefore_concat bound log e (Nat.le_of_lt hk)]
  · have hpos : 0 < log.length ↔ log ≠ [] := List.length_pos_iff
    rw [List.filterMap_cons, List.getElem?_concat_length, Option.bind_some,
      contextBefore_concat bound log e (Nat.le_refl _)]
    by_cases h : log ≠ [] ∧ e.mistaken = true
    · rw [if_pos h, if_pos ⟨hpos.mpr h.1, h.2⟩]
      rfl
    · rw [if_neg h, if_neg (fun hh => h ⟨hpos.mp hh.1, hh.2⟩)]
      rfl

def nextWord (m : BoundedCTModel) : ℕ → Word → Option ℕ :=
  relabel (fun w => m.wordMap.lookup w) (nextVertex m.ct.tree m.ct.tokens)

def weightOf (m : BoundedCTModel) (v : ℕ) (w : Word) : ℤ :=
  ((m.wordMap.lookup w).map (m.weight v)).getD 0

abbrev Numbers (m : BoundedCTModel) : List Word → List ℕ → Prop :=
  List.Forall₂ (fun w n => m.wordMap.lookup w = some n)

structure Tabled (m : BoundedCTModel) (table : List (Word × List Word)) : Prop where
  wooded : m.ct.tree.Wooded
  injective : m.ct.tokens.Injective
  unambiguous : Unambiguous m.nextWord rootNode
  reached : ∀ s, s ≠ [] → ((follow m.nextWord rootNode s).isSome ↔
    s.length < m.bound.toNat ∧ ∃ g ∈ table, s <+: g.2)
  named : ∀ v, v < m.ct.tree.length → ∃ s, follow m.nextWord rootNode s = some v
  weight : ∀ s v, s ≠ [] → follow m.nextWord rootNode s = some v → ∀ w,
    m.weightOf v w = -(table.countP (fun g => g.1 = w ∧ s <+: g.2) : ℤ)

lemma Tabled.of_same {m m' : BoundedCTModel} {table : List (Word × List Word)}
    (h : Tabled m table) (hnext : m'.nextWord = m.nextWord) (htree : m'.ct.tree = m.ct.tree)
    (hi : m'.ct.tokens.Injective) (hbound : m'.bound = m.bound)
    (hweight : ∀ v w, v ≠ rootNode → m'.weightOf v w = m.weightOf v w) : Tabled m' table := by
  refine ⟨htree ▸ h.wooded, hi, hnext ▸ h.unambiguous, ?_, ?_, ?_⟩
  · rw [hnext, hbound]
    exact h.reached
  · rw [hnext, htree]
    exact h.named
  · intro s v hs hv w
    rw [hnext] at hv
    have hne : v ≠ rootNode := by
      rintro rfl
      exact hs (h.unambiguous s [] rootNode hv rfl)
    rw [hweight v w hne]
    exact h.weight s v hs hv w

lemma wordMap_injective {m : BoundedCTModel} (h : Fitting m) (w w' : Word) (n : ℕ)
    (hw : m.wordMap.lookup w = some n) (hw' : m.wordMap.lookup w' = some n) : w = w' := by
  rw [h.wordMap] at hw hw'
  rw [hw, Option.some.injEq] at hw'
  exact hw'

lemma reached_lt {m : BoundedCTModel} (h : Fitting m) {s : List Word} {v : ℕ}
    (hs : follow m.nextWord rootNode s = some v) : v < m.ct.tree.length := by
  apply walk_mem (P := fun v => v < m.ct.tree.length) m.nextWord ?_ h.sound.nonempty s v
    (mem_walk_iff.mpr ⟨s, List.prefix_rfl, hs⟩)
  intro u w v hn
  obtain ⟨n, _, hv⟩ := Option.bind_eq_some_iff.mp hn
  exact (h.sound.nextVertex_older hv).2

lemma addWord_lookup_of_some {m : BoundedCTModel} {w : Word} {n : ℕ}
    (hw : m.wordMap.lookup w = some n) : m.addWord.wordMap.lookup w = some n := by
  cases hc : m.wordMap.lookup m.currentString with
  | some k => rwa [(addWord_of_some hc).1]
  | none =>
    have hne : w ≠ m.currentString := by
      rintro rfl
      simp [hc] at hw
    rw [addWord_eq_of_none hc]
    simpa [hne] using hw

lemma addWord_lookup_of_none {m : BoundedCTModel} (hc : m.wordMap.lookup m.currentString = none)
    (w : Word) : m.addWord.wordMap.lookup w =
      if w = m.currentString then some m.tokenNumber else m.wordMap.lookup w := by
  rw [addWord_eq_of_none hc]
  by_cases hw : w = m.currentString
  · subst hw
    simp
  · simp [hw]

lemma nextWord_addWord {m : BoundedCTModel} (hf : Fitting m) : m.addWord.nextWord = m.nextWord := by
  cases hc : m.wordMap.lookup m.currentString with
  | some k => rw [(addWord_of_some hc).1]
  | none =>
    have hct : m.addWord.ct = m.ct := by rw [addWord_same]
    funext v w
    rw [nextWord, nextWord, relabel, relabel, addWord_lookup_of_none hc, hct]
    by_cases hw : w = m.currentString
    · have hnot : m.tokenNumber ∉ m.ct.tokens.dataMap := fun hmem =>
        Nat.lt_irrefl _ (hf.dataMap _ hmem)
      rw [if_pos hw, hw, hc, Option.bind_some, nextVertex, AList.lookup_eq_none.mpr hnot]
      rfl
    · rw [if_neg hw]

lemma Tabled.addWord {m : BoundedCTModel} {table : List (Word × List Word)} (hf : Fitting m)
    (h : Tabled m table) : Tabled m.addWord table := by
  cases hc : m.wordMap.lookup m.currentString with
  | some k => rwa [(addWord_of_some hc).1]
  | none =>
    have hsame := addWord_same m
    have hct : m.addWord.ct = m.ct := by rw [hsame]
    have hweights : ∀ v n, m.addWord.weight v n = m.weight v n := by
      rw [hsame]
      intro v n
      rfl
    refine h.of_same (nextWord_addWord hf) (by rw [hct]) (hct ▸ h.injective) (by rw [hsame]) ?_
    intro v w hv
    rw [weightOf, weightOf, addWord_lookup_of_none hc]
    by_cases hw : w = m.currentString
    · rw [if_pos hw, hw, hc, Option.map_some, Option.map_none, hweights, Members.weight,
        if_neg hv]
      cases hget : m.weights[v - 1]? with
      | none => rfl
      | some ws =>
        have hnot : m.tokenNumber ∉ ws := fun hmem =>
          Nat.lt_irrefl _ (hf.keys _ ws hget _ hmem)
        simp [AList.lookup_eq_none.mpr hnot]
    · rw [if_neg hw]
      simp only [funext (hweights v)]

lemma grows_words {m : BoundedCTModel} (m' : BoundedCTModel) (hf : Fitting m)
    (hi : m.ct.tokens.Injective) {contextId : ℕ} (hp : Pending m.ct m.predictionContext contextId)
    {con : Context (List ℤ)} {path : List ℕ} (hc : m.ct.contexts[contextId]? = some con)
    (hr : Recorded m.ct.tree con path) (hpos : 0 < m.bound.toNat)
    (hint : m.predictionContext.length + 1 < 2 ^ 31)
    (hct : m'.ct = settled p.template m.ct contextId con path (m.bound.toNat : ℤ))
    (hmap : m'.wordMap = m.wordMap) {ws : List Word}
    (hws : m.Numbers ws m.predictionContext.reverse) :
    let count := (newTokens con path.length (m.bound.toNat : ℤ)).length
    ∃ ps rs : List Word, ps ++ rs = ws.take (m.bound.toNat - 1) ∧ rs.length = count ∧
      follow m.nextWord rootNode ps = some con.leaf ∧ walk m.nextWord rootNode ps = path ∧
      Grows m.nextWord con.leaf (rs.zip (List.range' m.ct.tree.length count)) m'.nextWord := by
  dsimp only
  obtain ⟨hpath, hcount, _, hgrows⟩ := hp.grows p.template hf.sound hi hc hr
    hf.context_length hint
  generalize (newTokens con path.length (m.bound.toNat : ℤ)).length = count at hcount hgrows ⊢
  have hlen := hws.length_eq
  rw [List.length_reverse] at hlen
  have hlength := hr.length_pos
  have hwalk : walk m.nextWord rootNode ws = path := by
    have hsame : walk m.nextWord rootNode ws =
        walk (nextVertex m.ct.tree m.ct.tokens) rootNode m.predictionContext.reverse :=
      (walk_relabel (ψ := some) hws rootNode).2
    rw [hsame, hpath, visited, hf.sound.root_eq]
    rfl
  refine ⟨ws.take (path.length - 1), (ws.drop (path.length - 1)).take count, ?_, ?_, ?_, ?_, ?_⟩
  · have hle := hf.context_length
    rw [← List.take_add, List.take_eq_take_iff]
    omega
  · rw [List.length_take, List.length_drop]
    omega
  · have hlast := follow_take_walk m.nextWord rootNode ws
    rwa [hwalk, hr.leaf] at hlast
  · have htake := walk_take_self m.nextWord rootNode ws
    rwa [hwalk] at htake
  · have hnumbers : m.Numbers ((ws.drop (path.length - 1)).take count)
        ((m.predictionContext.reverse.drop (path.length - 1)).take count) :=
      List.forall₂_take count (List.forall₂_drop _ hws)
    have hnext : m'.nextWord = relabel (fun w => m.wordMap.lookup w)
        (nextVertex (settled p.template m.ct contextId con path (m.bound.toNat : ℤ)).tree
          (settled p.template m.ct contextId con path (m.bound.toNat : ℤ)).tokens) := by
      rw [nextWord, hct, hmap]
    rw [hnext]
    exact hgrows.relabel (wordMap_injective hf) hnumbers

lemma weightOf_of_new {m : BoundedCTModel} (hf : Fitting m) {v : ℕ}
    (hv : m.ct.tree.length ≤ v) (w : Word) : m.weightOf v w = 0 := by
  have hlength := hf.weights_length
  have hnone : m.weights[v - 1]? = none := List.getElem?_eq_none (by omega)
  have hne : v ≠ rootNode := by
    have hnonempty := hf.sound.nonempty
    have hz : rootNode = 0 := rfl
    omega
  have hweight (n : ℕ) : m.weight v n = 0 := by
    rw [Members.weight, if_neg hne, hnone]
    rfl
  rw [weightOf]
  cases m.wordMap.lookup w with
  | none => rfl
  | some n => exact hweight n

lemma weightOf_of_charged {m m' : BoundedCTModel} (hf : Fitting m) {vertices : List ℕ} {added : ℕ}
    (hc : Charged m.toMembers m'.toMembers (feedback false) vertices added) {w : Word}
    (hw : m.wordMap.lookup w = some m.prediction) {v : ℕ} (hv : v ≠ rootNode) (x : Word) :
    m'.weightOf v x = m.weightOf v x + if v ∈ vertices ∧ x = w then -1 else 0 := by
  have hmap : m'.wordMap = m.wordMap := by rw [hc.same]
  rw [weightOf, weightOf, hmap]
  cases hx : m.wordMap.lookup x with
  | none =>
    have hxw : x ≠ w := by
      rintro rfl
      rw [hx] at hw
      cases hw
    simp [hxw]
  | some n =>
    have hxw : n = m.prediction ↔ x = w := by
      constructor
      · rintro rfl
        exact wordMap_injective hf x w _ hx hw
      · rintro rfl
        rw [hx] at hw
        exact Option.some.inj hw
    simp only [Option.map_some, Option.getD_some, hc.weight v n, hxw, hv, false_implies, and_true,
      feedback, Bool.false_eq_true, ↓reduceIte]

lemma Tabled.weight_before {m : BoundedCTModel} {table : List (Word × List Word)} (hf : Fitting m)
    (h : Tabled m table) {s : List Word} {v : ℕ} (hs : s ≠ []) (hshort : s.length < m.bound.toNat)
    (hv : follow m.nextWord rootNode s = some v ∨
      follow m.nextWord rootNode s = none ∧ m.ct.tree.length ≤ v) (x : Word) :
    m.weightOf v x = -(table.countP (fun g => g.1 = x ∧ s <+: g.2) : ℤ) := by
  rcases hv with hreached | ⟨hnone, hnew⟩
  · exact h.weight s v hs hreached x
  · have hunreached : ¬ ∃ g ∈ table, s <+: g.2 := by
      intro hex
      have hsome := (h.reached s hs).mpr ⟨hshort, hex⟩
      rw [hnone] at hsome
      exact Bool.false_ne_true hsome
    rw [weightOf_of_new hf hnew, List.countP_eq_zero.mpr]
    · rfl
    · intro g hg
      simpa using fun _ hpre => hunreached ⟨g, hg, hpre⟩

structure Extended (m m' : BoundedCTModel) (vertices : List ℕ) (ws : List Word) : Prop where
  unambiguous : Unambiguous m'.nextWord rootNode
  kept : ∀ s v, follow m.nextWord rootNode s = some v → follow m'.nextWord rootNode s = some v
  place : ∀ s v, follow m'.nextWord rootNode s = some v →
    follow m.nextWord rootNode s = some v ∨
      follow m.nextWord rootNode s = none ∧ m.ct.tree.length ≤ v
  reached : ∀ s, (follow m'.nextWord rootNode s).isSome ↔
    (follow m.nextWord rootNode s).isSome ∨ (s.length < m.bound.toNat ∧ s <+: ws)
  visited : ∀ v, v ∈ vertices ↔
    ∃ s, (s.length < m.bound.toNat ∧ s <+: ws) ∧ follow m'.nextWord rootNode s = some v

lemma extended_of_grows {m m' : BoundedCTModel} (hf : Fitting m)
    (hu : Unambiguous m.nextWord rootNode) (hpos : 0 < m.bound.toNat) {last count : ℕ}
    {ws ps rs : List Word} (hps : ps ++ rs = ws.take (m.bound.toNat - 1))
    (hlen : rs.length = count) (hlast : follow m.nextWord rootNode ps = some last)
    (hgrows : Grows m.nextWord last (rs.zip (List.range' m.ct.tree.length count)) m'.nextWord) :
    Extended m m' (walk m.nextWord rootNode ps ++ List.range' m.ct.tree.length count) ws := by
  have hfst : (rs.zip (List.range' m.ct.tree.length count)).map Prod.fst = rs :=
    List.map_fst_zip (by rw [List.length_range', hlen])
  have hsnd : (rs.zip (List.range' m.ct.tree.length count)).map Prod.snd =
      List.range' m.ct.tree.length count :=
    List.map_snd_zip (by rw [List.length_range', hlen])
  have hroot : ∀ c ∈ rs.zip (List.range' m.ct.tree.length count), rootNode ≠ c.2 := by
    intro c hmem
    have hnew := (List.mem_range'_1.mp (List.of_mem_zip hmem).2).1
    have hnonempty := hf.sound.nonempty
    have hz : rootNode = 0 := rfl
    omega
  have hbegins (s : List Word) :
      s <+: ws.take (m.bound.toNat - 1) ↔ s.length < m.bound.toNat ∧ s <+: ws := by
    rw [List.prefix_take_iff, and_comm, Nat.le_sub_one_iff_lt hpos]
  have hkept {s : List Word} {v : ℕ} (hs : follow m.nextWord rootNode s = some v) :
      follow m'.nextWord rootNode s = some v :=
    (hgrows.follow_eq_some hroot).mpr (Or.inl hs)
  refine ⟨hgrows.unambiguous hroot hu, fun _ _ => hkept, fun s v hv => ?_, fun s => ?_,
    fun v => ?_⟩
  · rcases (hgrows.follow_eq_some hroot).mp hv with hold | ⟨k, hk, _⟩
    · exact Or.inl hold
    · have hnew : m.ct.tree.length ≤ v := by
        rw [← List.getElem?_map, hsnd] at hk
        exact (List.mem_range'_1.mp (List.mem_of_getElem? hk)).1
      refine Or.inr ⟨Option.eq_none_iff_forall_not_mem.mpr fun u hu => ?_, hnew⟩
      have hv' := hkept hu
      rw [hv, Option.some.injEq] at hv'
      have hlt := reached_lt hf hu
      omega
  · have hreaches := hgrows.reaches hroot hu hlast s
    rw [hfst, hps, hbegins] at hreaches
    exact hreaches
  · have hwalk := (hgrows.walk hlast).1
    rw [hfst, hps, hsnd] at hwalk
    rw [← hwalk, mem_walk_iff]
    simp only [hbegins]

namespace Extended

variable {m m' : BoundedCTModel} {vertices : List ℕ} {ws : List Word}

lemma ne_rootNode (hx : Extended m m' vertices ws) {s : List Word} {v : ℕ} (hs : s ≠ [])
    (hv : follow m'.nextWord rootNode s = some v) : v ≠ rootNode := by
  rintro rfl
  exact hs (hx.unambiguous s [] rootNode hv rfl)

lemma mem_vertices (hx : Extended m m' vertices ws) {s : List Word} {v : ℕ}
    (hshort : s.length < m.bound.toNat) (hv : follow m'.nextWord rootNode s = some v) :
    v ∈ vertices ↔ s <+: ws := by
  rw [hx.visited]
  constructor
  · rintro ⟨s', ⟨_, hs'⟩, hv'⟩
    rwa [hx.unambiguous s s' v hv hv']
  · exact fun hs => ⟨s, ⟨hshort, hs⟩, hv⟩

end Extended

lemma Tabled.extended {m m' : BoundedCTModel} {table : List (Word × List Word)} (hf : Fitting m)
    (h : Tabled m table) {vertices : List ℕ} {ws : List Word}
    (hx : Extended m m' vertices ws) (hwooded : m'.ct.tree.Wooded)
    (hi : m'.ct.tokens.Injective) (hbound : m'.bound = m.bound)
    (hnew : ∀ v, v < m'.ct.tree.length → v < m.ct.tree.length ∨ v ∈ vertices) {added : ℕ}
    (hc : Charged m.toMembers m'.toMembers (feedback false) vertices added) {w : Word}
    (hw : m.wordMap.lookup w = some m.prediction) : Tabled m' (table ++ [(w, ws)]) := by
  refine ⟨hwooded, hi, hx.unambiguous, ?_, ?_, ?_⟩
  · intro s hs
    rw [hx.reached, h.reached s hs, hbound, ← and_or_left]
    simp
  · intro v hv
    rcases hnew v hv with hold | hmem
    · obtain ⟨s, hs⟩ := h.named v hold
      exact ⟨s, hx.kept s v hs⟩
    · obtain ⟨s, _, hs⟩ := (hx.visited v).mp hmem
      exact ⟨s, hs⟩
  · intro s v hs hv x
    have hshort : s.length < m.bound.toNat := by
      rcases (hx.reached s).mp (by rw [hv]; rfl) with hold | hnew
      · exact ((h.reached s hs).mp hold).1
      · exact hnew.1
    have hold := h.weight_before hf hs hshort (hx.place s v hv) x
    have hadded : m'.weightOf v x = m.weightOf v x + if s <+: ws ∧ x = w then -1 else 0 := by
      rw [weightOf_of_charged hf hc hw (hx.ne_rootNode hs hv),
        if_congr (and_congr_left' (hx.mem_vertices hshort hv)) rfl rfl]
    rw [hadded, hold, List.countP_append, List.countP_singleton]
    by_cases hboth : s <+: ws ∧ x = w
    · simp [hboth.1, hboth.2]
      omega
    · have hboth' : ¬ (w = x ∧ s <+: ws) := fun hh => hboth ⟨hh.2, hh.1.symm⟩
      simp [hboth, hboth']

lemma settled_extended {m : BoundedCTModel} (members : Members) (hf : Fitting m)
    (hi : m.ct.tokens.Injective) (hu : Unambiguous m.nextWord rootNode) {contextId : ℕ}
    (hp : Pending m.ct m.predictionContext contextId) {con : Context (List ℤ)} {path : List ℕ}
    (hc : m.ct.contexts[contextId]? = some con) (hr : Recorded m.ct.tree con path)
    (hpos : 0 < m.bound.toNat) (hint : m.predictionContext.length + 1 < 2 ^ 31)
    (hmap : members.wordMap = m.wordMap) {ws : List Word}
    (hws : m.Numbers ws m.predictionContext.reverse) :
    let m' : BoundedCTModel :=
      { members with ct := settled p.template m.ct contextId con path (m.bound.toNat : ℤ) }
    let vertices := path ++
      List.range' m.ct.tree.length (newTokens con path.length (m.bound.toNat : ℤ)).length
    Extended m m' vertices ws ∧ (m.ct.tree.Wooded → m'.ct.tree.Wooded) ∧
      ∀ v, v < m'.ct.tree.length → v < m.ct.tree.length ∨ v ∈ vertices := by
  dsimp only
  obtain ⟨-, -, hwooded, -⟩ := hp.grows p.template hf.sound hi hc hr hf.context_length hint
  obtain ⟨ps, rs, hps, hlen, hlast, hwalk, hgrows⟩ := grows_words p
    { members with ct := settled p.template m.ct contextId con path (m.bound.toNat : ℤ) }
    hf hi hp hc hr hpos hint rfl hmap hws
  have hx := extended_of_grows hf hu hpos hps hlen hlast hgrows
  rw [hwalk] at hx
  refine ⟨hx, hwooded, fun v hv => ?_⟩
  rw [settled_length p.template hr] at hv
  rw [List.mem_append, List.mem_range'_1]
  omega

lemma Tabled.fed {m m' : BoundedCTModel} {table : List (Word × List Word)} (hf : Fitting m)
    (h : Tabled m table) {contextId : ℕ} (hp : Pending m.ct m.predictionContext contextId)
    (hpos : 0 < m.bound.toNat) (hint : m.predictionContext.length + 1 < 2 ^ 31)
    (hfed : Fed p m false contextId (m.bound.toNat : ℤ) m')
    {w : Word} (hw : m.wordMap.lookup w = some m.prediction) {ws : List Word}
    (hws : m.Numbers ws m.predictionContext.reverse) : Tabled m' (table ++ [(w, ws)]) := by
  cases hfed with
  | rejected hn => exact (hn hp.active).elim
  | @settled con path members ha hc hr hcharged =>
    have hmap : members.wordMap = m.wordMap := by rw [hcharged.same]
    have hbound : members.bound = m.bound := by rw [hcharged.same]
    obtain ⟨hx, hwooded, hnew⟩ := settled_extended p members hf h.injective h.unambiguous hp hc hr
      hpos hint hmap hws
    exact h.extended hf hx (hwooded h.wooded) h.injective hbound hnew hcharged hw

def Call.hears : Call → Bool
  | .putc _ => true
  | .interface _ => true
  | .getPrediction none => true
  | _ => false

variable {p} in
lemma Stepped.hearing {m m' : BoundedCTModel} {c : Call} (hs : Stepped p m c m')
    (hears : c.hears = true) :
    (m' = { m with currentString := m'.currentString } ∧ commits p m c m' = []) ∨
      ∃ m₁ contextId con t word data e, Corrected p m m₁ ∧
        Foretold m₁.pushContext m' contextId con t word data ∧ commits p m c m' = [e] ∧
        e.word = m.currentString ∧
        e.mistaken = decide (m.words[m.prediction]? ≠ some m.currentString) := by
  cases hs with
  | quiet he hid hn =>
    have hid' : m'.predictionId = m.predictionId := hid (by
      rintro id rfl
      cases hears)
    rw [hid'] at he
    exact Or.inl ⟨he, hn m'⟩
  | regretted => cases hears
  | committed hpos hcor hprepare hfor =>
    exact Or.inr ⟨_, _, _, _, _, _, _, hcor, hfor, commits_committed p hpos hprepare, rfl, rfl⟩

structure Heard (m : BoundedCTModel) (log : List Commit) : Prop where
  context : m.Numbers (contextBefore m.bound.toNat log log.length) m.predictionContext.reverse
  entered : ∀ n ∈ m.predictionContext, n ∈ m.ct.tokens.dataMap
  none : log = [] → m.ct.activeIds = []
  latest : log ≠ [] → Pending m.ct m.predictionContext m.predictionId

lemma Numbers.addWord {m : BoundedCTModel} {ws : List Word} {ns : List ℕ} (h : m.Numbers ws ns) :
    m.addWord.Numbers ws ns :=
  h.imp (fun _ _ hw => addWord_lookup_of_some hw)

lemma blamed_numbers {m : BoundedCTModel} {ws : List Word} {ns : List ℕ} (h : m.Numbers ws ns) :
    (blamed m).Numbers ws ns :=
  Numbers.addWord h

lemma depth_of_small {m : BoundedCTModel} (h : m.bound.toNat < 2 ^ 31) :
    m.depth = m.bound.toNat := by
  have hb : m.depth = m.bound.toBitVec.toInt := rfl
  have hn : m.bound.toBitVec.toNat = m.bound.toNat := rfl
  rw [hb, BitVec.toInt_eq_toNat_cond]
  split
  · rw [hn]
  · omega

section Blame

variable {p} {m m' : BoundedCTModel} {log : List Commit}

lemma Heard.unfed (hh : Heard m []) (hfed : Fed p (blamed m) false m.predictionId m.depth m') :
    m' = blamed m := by
  have hct : (blamed m).ct = m.ct := by rw [blamed, addWord_same]
  cases hfed with
  | rejected => rfl
  | settled ha =>
    rw [hct, hh.none rfl] at ha
    cases ha

lemma Heard.fed (hh : Heard m log) (hlog : log ≠ []) (hsmall : m.bound.toNat < 2 ^ 31)
    (hfed : Fed p (blamed m) false m.predictionId m.depth m') :
    Pending (blamed m).ct (blamed m).predictionContext m.predictionId ∧
      Fed p (blamed m) false m.predictionId ((blamed m).bound.toNat : ℤ) m' ∧
      (blamed m).Numbers (contextBefore m.bound.toNat log log.length)
        (blamed m).predictionContext.reverse := by
  have hct : (blamed m).ct = m.ct := by rw [blamed, addWord_same]
  have hcontext : (blamed m).predictionContext = m.predictionContext := by
    rw [blamed, addWord_same]
  have hbound : (blamed m).bound = m.bound := by rw [blamed, addWord_same]
  rw [hct, hcontext, hbound, ← depth_of_small hsmall]
  exact ⟨hh.latest hlog, hfed, blamed_numbers hh.context⟩

end Blame

lemma Corrected.tabled {m m' : BoundedCTModel} (h : Fitting m) {log : List Commit}
    (ht : Tabled m (mistakenSteps m.bound.toNat log)) (hh : Heard m log)
    (hpos : 0 < m.bound.toNat) (hsmall : m.bound.toNat < 2 ^ 31)
    (hint : Mistaken m → m.predictionContext.length + 1 < 2 ^ 31) (hc : Corrected p m m')
    {e : Commit} (hword : e.word = m.currentString)
    (hmistaken : e.mistaken = decide (m.words[m.prediction]? ≠ some m.currentString)) :
    Tabled m' (mistakenSteps m.bound.toNat (log ++ [e])) := by
  rw [mistaken_eq h] at hmistaken
  rw [mistakenSteps_concat, hword]
  cases hc with
  | right hn =>
    rw [if_neg (by simp [hmistaken, hn]), List.append_nil]
    exact ht.addWord h
  | wrong hm hfed =>
    have htable : Tabled (blamed m) (mistakenSteps m.bound.toNat log) := by
      refine (ht.addWord h).of_same rfl rfl ?_ rfl (fun _ _ _ => rfl)
      exact (ht.addWord h).injective
    by_cases hlog : log = []
    · subst hlog
      rw [if_neg (fun hh => hh.1 rfl), List.append_nil, hh.unfed hfed]
      exact htable
    · rw [if_pos ⟨hlog, by simp [hmistaken, hm]⟩]
      obtain ⟨hpending, hfed', hws⟩ := hh.fed hlog hsmall hfed
      have hbound : (blamed m).bound = m.bound := by rw [blamed, addWord_same]
      have hcontext : (blamed m).predictionContext = m.predictionContext := by
        rw [blamed, addWord_same]
      exact htable.fed p (blamed_fitting h) hpending (by rw [hbound]; exact hpos)
        (by rw [hcontext]; exact hint hm) hfed' (addWord_lookup m) hws

lemma pushContext_reverse (m : BoundedCTModel) : m.pushContext.predictionContext.reverse =
    (m.currentToken :: m.predictionContext.reverse).take m.bound.toNat := by
  change (popWhileOver m.bound.toNat (m.predictionContext ++ [m.currentToken])).reverse = _
  rw [popWhileOver_eq, List.reverse_drop, List.reverse_append, List.reverse_singleton,
    List.singleton_append, List.take_eq_take_iff]
  simp only [List.length_append, List.length_cons, List.length_nil, List.length_reverse]
  omega

structure Ready (m : BoundedCTModel) (log : List Commit) : Prop where
  tabled : Tabled m (mistakenSteps m.bound.toNat log)
  context : m.Numbers (contextBefore m.bound.toNat log log.length) m.predictionContext.reverse
  missed : m.ct.matched m.predictionContext = none
  entered : ∀ n ∈ m.predictionContext.reverse.tail, n ∈ m.ct.tokens.dataMap

section Prepare

variable {p} {m m₁ : BoundedCTModel} {log : List Commit} (hc : Corrected p m m₁)

include hc

lemma Corrected.bound_eq : m₁.bound = m.bound := by rw [hc.same.1, addWord_same]

lemma Corrected.predictionContext_eq : m₁.predictionContext = m.predictionContext := by
  rw [hc.same.1, addWord_same]

lemma Corrected.context_reverse : m₁.pushContext.predictionContext.reverse =
    (m.addWord.currentToken :: m.predictionContext.reverse).take m.bound.toNat := by
  rw [pushContext_reverse, hc.bound_eq, hc.predictionContext_eq, hc.currentToken]

lemma Corrected.context (hh : Heard m log) {e : Commit} (hword : e.word = m.currentString) :
    m₁.pushContext.Numbers (contextBefore m.bound.toNat (log ++ [e]) (log ++ [e]).length)
      m₁.pushContext.predictionContext.reverse := by
  have hmap : m₁.pushContext.wordMap = m.addWord.wordMap := by
    change m₁.wordMap = _
    rw [hc.same.1]
  rw [Numbers, hmap, contextBefore_last, hc.context_reverse, hword]
  exact List.forall₂_take _ (.cons (addWord_lookup m) (Numbers.addWord hh.context))

lemma Corrected.missed (h : Fitting m)
    (hr : Recalled m.ct m.depth m.predictionContext.length log) (hpos : 0 < m.bound.toNat)
    (hsmall : m.bound.toNat < 2 ^ 31) :
    m₁.pushContext.ct.matched m₁.pushContext.predictionContext = none := by
  obtain ⟨level, hl⟩ := (hc.recalled p h hr).leveled
  have hlen := pushContext_length m₁
  have hle := h.context_length
  have hdepth := depth_of_small hsmall
  rw [hc.bound_eq, hc.predictionContext_eq] at hlen
  have hlong : m.predictionContext.length < m₁.pushContext.predictionContext.length ∨
      m.depth ≤ m₁.pushContext.predictionContext.length := by omega
  rcases hl.matched (hc.pushContext_fitting p h).sound hlong with hnil | hmiss
  · rw [hnil, List.length_nil] at hlen
    omega
  · exact hmiss

lemma Corrected.entered (hh : Heard m log) (hpos : 0 < m.bound.toNat) :
    ∀ n ∈ m₁.pushContext.predictionContext.reverse.tail, n ∈ m₁.pushContext.ct.tokens.dataMap := by
  intro n hn
  rw [hc.context_reverse] at hn
  obtain ⟨b, hb⟩ := Nat.exists_eq_succ_of_ne_zero (Nat.ne_of_gt hpos)
  rw [hb, List.take_succ_cons, List.tail_cons] at hn
  change n ∈ m₁.ct.tokens.dataMap
  rw [hc.same.2.2]
  exact hh.entered n (List.mem_reverse.mp (List.mem_of_mem_take hn))

end Prepare

lemma Corrected.ready {m m₁ : BoundedCTModel} (h : Fitting m) {log : List Commit}
    (hr : Recalled m.ct m.depth m.predictionContext.length log)
    (ht : Tabled m (mistakenSteps m.bound.toNat log)) (hh : Heard m log)
    (hpos : 0 < m.bound.toNat) (hsmall : m.bound.toNat < 2 ^ 31)
    (hint : Mistaken m → m.predictionContext.length + 1 < 2 ^ 31) (hc : Corrected p m m₁)
    {e : Commit} (hword : e.word = m.currentString)
    (hmistaken : e.mistaken = decide (m.words[m.prediction]? ≠ some m.currentString)) :
    Ready m₁.pushContext (log ++ [e]) := by
  have htable := hc.tabled p h ht hh hpos hsmall hint hword hmistaken
  have hbound : m₁.pushContext.bound = m.bound := hc.bound_eq
  refine ⟨?_, ?_, hc.missed h hr hpos hsmall, hc.entered hh hpos⟩
  · rw [hbound]
    exact htable.of_same rfl rfl htable.injective rfl (fun _ _ _ => rfl)
  · rw [hbound]
    exact hc.context hh hword

lemma Foretold.pending {m m' : BoundedCTModel} {contextId : ℕ} {con : Context (List ℤ)}
    {t : ContextTree ℕ (List ℤ)} {word : ℕ} {data : List ℤ} (h : Fitting m)
    (hf : Foretold m m' contextId con t word data) (hi : m.ct.tokens.Injective)
    (hm : m.ct.matched m.predictionContext = none)
    (hknown : ∀ n ∈ m.predictionContext.reverse.tail, n ∈ m.ct.tokens.dataMap) :
    Pending m'.ct m'.predictionContext m'.predictionId ∧ m'.ct.tokens.Injective ∧
      m'.nextWord = m.nextWord ∧ ∀ n ∈ m'.predictionContext, n ∈ m'.ct.tokens.dataMap := by
  obtain ⟨hpending, hi', hnext, hentered⟩ := hf.made.learns h.sound h.numbered hi hm hknown
  rw [hf.result]
  refine ⟨hpending.setData contextId data, hi', ?_, fun n hn => hentered n (Or.inr hn)⟩
  rw [nextWord, nextWord, ← hnext]
  rfl

lemma Foretold.tree_eq {m m' : BoundedCTModel} {contextId : ℕ} {con : Context (List ℤ)}
    {t : ContextTree ℕ (List ℤ)} {word : ℕ} {data : List ℤ}
    (hf : Foretold m m' contextId con t word data) : m'.ct.tree = m.ct.tree := by
  have hmade : t.tree = m.ct.tree := by rw [hf.made.same]
  rw [hf.result]
  exact hmade

lemma Foretold.tabled {m m' : BoundedCTModel} {contextId : ℕ} {con : Context (List ℤ)}
    {t : ContextTree ℕ (List ℤ)} {word : ℕ} {data : List ℤ}
    (hf : Foretold m m' contextId con t word data) {table : List (Word × List Word)}
    (ht : Tabled m table) (hi : m'.ct.tokens.Injective) (hnext : m'.nextWord = m.nextWord) :
    Tabled m' table := by
  have hbound : m'.bound = m.bound := by rw [hf.result, predicted]
  refine ht.of_same hnext hf.tree_eq hi hbound (fun v w hv => ?_)
  rw [hf.result]
  have hweight (n : ℕ) : (predicted { m.toMembers with predictionId := contextId } word).weight v n =
      m.weight v n := by
    rw [Members.weight, Members.weight, if_neg hv, if_neg hv]
    rfl
  rw [weightOf, weightOf]
  simp only [← funext hweight]
  rfl

lemma Foretold.bound_eq {m m₁ m' : BoundedCTModel} {contextId : ℕ} {con : Context (List ℤ)}
    {t : ContextTree ℕ (List ℤ)} {word : ℕ} {data : List ℤ}
    (hfor : Foretold m₁.pushContext m' contextId con t word data) (hcor : Corrected p m m₁) :
    m'.bound = m.bound := by
  rw [hfor.result]
  exact hcor.bound_eq

lemma Heard.commit {m m₁ m' : BoundedCTModel} {log : List Commit} (hh : Heard m log)
    (h : Fitting m) (hr : Recalled m.ct m.depth m.predictionContext.length log)
    (hi : m.ct.tokens.Injective) (hpos : 0 < m.bound.toNat) (hsmall : m.bound.toNat < 2 ^ 31)
    (hc : Corrected p m m₁) {contextId : ℕ} {con : Context (List ℤ)}
    {t : ContextTree ℕ (List ℤ)} {word : ℕ} {data : List ℤ}
    (hfor : Foretold m₁.pushContext m' contextId con t word data) {e : Commit}
    (hword : e.word = m.currentString) :
    m'.bound = m.bound ∧ Heard m' (log ++ [e]) ∧ m'.ct.tokens.Injective ∧
      m'.nextWord = m₁.nextWord := by
  have hbound := hfor.bound_eq p hc
  have hi₁ : m₁.pushContext.ct.tokens.Injective := by
    change m₁.ct.tokens.Injective
    rwa [hc.same.2.2]
  obtain ⟨hlatest, hi', hnext, hentered⟩ := hfor.pending (hc.pushContext_fitting p h) hi₁
    (hc.missed h hr hpos hsmall) (hc.entered hh hpos)
  have hcontext : m'.Numbers (contextBefore m'.bound.toNat (log ++ [e]) (log ++ [e]).length)
      m'.predictionContext.reverse := by
    rw [hbound, hfor.result]
    exact hc.context hh hword
  exact ⟨hbound, ⟨hcontext, hentered, by simp, fun _ => hlatest⟩, hi', hnext⟩

lemma Stepped.tabled {m m' : BoundedCTModel} {c : Call} (h : Fitting m) {log : List Commit}
    (hr : Recalled m.ct m.depth m.predictionContext.length log)
    (ht : Tabled m (mistakenSteps m.bound.toNat log)) (hh : Heard m log)
    (hpos : 0 < m.bound.toNat) (hsmall : m.bound.toNat < 2 ^ 31)
    (hint : Mistaken m → m.predictionContext.length + 1 < 2 ^ 31) (hs : Stepped p m c m')
    (hears : c.hears = true) :
    m'.bound = m.bound ∧ Tabled m' (mistakenSteps m.bound.toNat (log ++ commits p m c m')) ∧
      Heard m' (log ++ commits p m c m') := by
  rcases hs.hearing hears with ⟨he, hn⟩ | ⟨m₁, _, _, _, _, _, e, hcor, hfor, hn, hword, hmistaken⟩
  · rw [hn, List.append_nil, he]
    exact ⟨rfl, ht.of_same rfl rfl ht.injective rfl (fun _ _ _ => rfl),
      ⟨hh.context, hh.entered, hh.none, hh.latest⟩⟩
  · rw [hn]
    have hready := hcor.ready p h hr ht hh hpos hsmall hint hword hmistaken
    obtain ⟨hbound, hheard, hi, hnext⟩ := hh.commit p h hr ht.injective hpos hsmall hcor hfor hword
    have htable := hfor.tabled hready.tabled hi hnext
    change Tabled m' (mistakenSteps m₁.bound.toNat _) at htable
    rw [hcor.bound_eq] at htable
    exact ⟨hbound, htable, hheard⟩

lemma fresh_tabled (bound : UInt32) (predictionId : ℕ) :
    Tabled (fresh bound predictionId) [] := by
  have hstop (v : ℕ) (w : Word) : (fresh bound predictionId).nextWord v w = none := by
    simp [nextWord, relabel, nextVertex, fresh, ContextTree.fresh]
  have hfollow (s : List Word) (v : ℕ)
      (h : follow (fresh bound predictionId).nextWord rootNode s = some v) : s = [] ∧ v = 0 := by
    cases s with
    | nil => exact ⟨rfl, (Option.some.inj h).symm⟩
    | cons w s => simp [follow, hstop] at h
  refine ⟨fresh_wooded [] 20, ?_, ?_, ?_, ?_, ?_⟩
  · intro c d n hc
    simp [fresh, ContextTree.fresh] at hc
  · intro s s' v hs hs'
    rw [(hfollow s v hs).1, (hfollow s' v hs').1]
  · intro s hs
    cases hf : follow (fresh bound predictionId).nextWord rootNode s with
    | none => simp
    | some v => exact (hs (hfollow s v hf).1).elim
  · intro v hv
    exact ⟨[], by simpa [fresh, ContextTree.fresh, rootNode, eq_comm] using hv⟩
  · intro s v hs hv
    exact (hs (hfollow s v hv).1).elim

lemma fresh_heard (bound : UInt32) (predictionId : ℕ) : Heard (fresh bound predictionId) [] := by
  refine ⟨?_, by simp [fresh], fun _ => rfl, by simp⟩
  simp [fresh, contextBefore]

lemma Reached.exists_of_hears (pastEnd : Graph → ℕ → ℕ → ℕ) (bound : UInt32) {predictionId : ℕ}
    (hid : (fresh bound predictionId).ct.validateId predictionId = false) {calls : List Call}
    (hcalls : ∀ c ∈ calls, c.hears = true) :
    ∃ s, Reached ⟨pastEnd, .dropped⟩ (fun _ c => c.hears = true) bound predictionId calls s := by
  have hne : predictionId ≠ 20 := by
    rintro rfl
    simp [fresh, ContextTree.fresh, validateId] at hid
  suffices hrun : ∃ s, Reached ⟨pastEnd, .dropped⟩ (fun _ c => c.hears = true) bound predictionId
      calls s ∧ (Fitting s.1 ∧ Complete s.1) ∧ s.1.predictionId ≠ 20 from
    hrun.imp (fun _ h => h.1)
  refine Runs.Run.exists_of_progress (P := fun s : BoundedCTModel × List Commit =>
    (Fitting s.1 ∧ Complete s.1) ∧ s.1.predictionId ≠ 20) ?_
    ⟨⟨fresh_fitting bound predictionId, rfl⟩, hne⟩
  rintro ⟨m, log⟩ ⟨⟨hf, hc⟩, hid⟩ c hmem
  have hears := hcalls c hmem
  refine ⟨hears, ?_⟩
  obtain ⟨m', he, hs, hid'⟩ := step_dropped pastEnd hf hc hid (c := c) (by
    intro id hpass
    cases c with
    | putc => cases hpass
    | getPrediction => cases hpass; cases hears
    | predictionResult => cases hears
    | interface => cases hpass)
  exact ⟨(m', log ++ commits ⟨pastEnd, .dropped⟩ m c m'), Runs.traced_eq_ok.mpr ⟨he, rfl⟩,
    hs.fitting _ hf hc, hid'⟩

def Leads (m : BoundedCTModel) (s : List Word) (v : ℕ) : Prop :=
  ∃ ns ts, m.Numbers s ns ∧ m.ct.tokens.Name ns ts ∧ TokenPath m.ct.tree m.ct.root v ts

lemma leads_iff {m : BoundedCTModel} (hf : Fitting m) (hw : m.ct.tree.Wooded) {s : List Word}
    {v : ℕ} : m.Leads s v ↔ follow m.nextWord rootNode s = some v := by
  have hroot : m.ct.root = rootNode := hf.sound.root_eq
  rw [nextWord, follow_relabel_iff, Leads, hroot]
  constructor
  · rintro ⟨ns, ts, hns, hts, hpath⟩
    refine ⟨ns, hns, ?_⟩
    have hfollow := hw.follow_of_tokenPath hpath
    exact follow_relabel_iff.mpr ⟨ts, hts, hfollow⟩
  · rintro ⟨ns, hns, hfollow⟩
    change follow (relabel (fun n => m.ct.tokens.dataMap.lookup n) (descend m.ct.tree)) rootNode
      ns = some v at hfollow
    obtain ⟨ts, hts, hdown⟩ := follow_relabel_iff.mp hfollow
    exact ⟨ns, ts, hns, hts, hf.sound.ordered.tokenPath_of_follow hdown⟩

end WordModel.BoundedCTModel
