import WordModel.BoundedCTModel.Learner
import WordModel.ContextTree.Degrees
import WordModel.ContextTree.Naming
import WordModel.Library.Firsts

/-! The labels of a summary. The model numbers words as it enters them, the tree numbers them
again as it first descends along them, and a label reads the one number in the table of the
other. -/

namespace WordModel.BoundedCTModel

open Checked ContextTree Firsts Follow Learner

variable (p : Platform)

def cStr (w : Word) : Word := w.takeWhile (· ≠ 0)

def writeSummary (m : BoundedCTModel) : Exec Container (BoundedCTModel × Drawing Word) := do
  let (ct, drawing) ← writeGraph (m.words.map cStr) m.ct
  return ({ m with ct := ct }, drawing)

/-- A context leads to the vertex, and the word is the oldest of what it takes to get there. -/
def StandsFor (m : BoundedCTModel) (bound : ℕ) (log : List Commit) (v : ℕ) (w : Word) : Prop :=
  ∃ us k, us ++ [w] <+: contextBefore bound log k ∧ m.Leads (us ++ [w]) v

def Labelled (m : BoundedCTModel) (bound : ℕ) (log : List Commit) : Prop :=
  ∃ m' drawing, m.writeSummary = .ok (m', drawing) ∧
    ∀ v, v < m.ct.tree.length → v ≠ m.ct.root →
      (∃ w, m.StandsFor bound log v w) ∧
        ∀ w, m.StandsFor bound log v w → drawing.labels[v]? = some w

def entries (ws : List Word) : List Word :=
  [] :: interfaceToken :: (firsts ws).filter (· ≠ interfaceToken)

lemma mem_entries {ws : List Word} {w : Word} :
    w ∈ entries ws ↔ w = [] ∨ w = interfaceToken ∨ w ∈ ws := by
  rw [entries, List.mem_cons, List.mem_cons, List.mem_filter, mem_firsts, decide_eq_true_iff]
  by_cases hi : w = interfaceToken
  · simp [hi]
  · simp [hi]

lemma enter_entries {w : Word} (hne : w ≠ []) (ws : List Word) :
    enter (entries ws) w = entries (ws ++ [w]) := by
  by_cases hw : w ∈ ws
  · rw [enter, if_pos (mem_entries.mpr (Or.inr (Or.inr hw))), entries, entries, firsts_concat,
      if_pos hw]
  · by_cases hi : w = interfaceToken
    · rw [enter, if_pos (mem_entries.mpr (Or.inr (Or.inl hi))), entries, entries, firsts_concat,
        if_neg hw, List.filter_append]
      simp [hi]
    · have hnew : w ∉ entries ws := fun hmem =>
        (mem_entries.mp hmem).elim hne (fun hh => hh.elim hi hw)
      rw [enter, if_neg hnew, entries, entries, firsts_concat, if_neg hw, List.filter_append]
      simp [hi]

lemma Stepped.entries {m m' : BoundedCTModel} {c : Call} (hf : Fitting m)
    (hs : Stepped p m c m') {log : List Commit} (h : m.words = BoundedCTModel.entries (log.map (·.word))) :
    m'.words = BoundedCTModel.entries ((log ++ commits p m c m').map (·.word)) := by
  cases hs with
  | quiet he _ hn =>
    rw [hn m', List.append_nil, he]
    exact h
  | regretted hfed =>
    rw [commits_predictionResult, List.append_nil, hfed.same.1]
    exact h
  | @committed m₁ _ _ _ _ _ _ hpos hcor hprepare hfor =>
    have hwords : m'.words = m.addWord.words := by
      rw [hfor.result, ← hcor.words]
      rfl
    rw [commits_committed p hpos hprepare, hwords, addWord_words hf, h, List.map_append,
      enter_entries (List.ne_nil_of_length_pos hpos)]
    rfl

lemma edit_clean {w : Word} (h : 0 ∉ w) (c : UInt8) : 0 ∉ edit w c := by
  rw [edit]
  split
  · exact h
  · split
    · exact fun hmem => h (List.mem_of_mem_dropLast hmem)
    · rename_i hc _
      rw [List.mem_append, List.mem_singleton]
      exact fun hmem => hmem.elim h (fun he => hc he.symm)

lemma listen_clean {s : List Word × Word} (h : (∀ w ∈ s.1, 0 ∉ w) ∧ 0 ∉ s.2) (c : Call) :
    (∀ w ∈ (listen s c).1, 0 ∉ w) ∧ 0 ∉ (listen s c).2 := by
  obtain ⟨ws, w⟩ := s
  cases c with
  | putc c => exact ⟨h.1, edit_clean h.2 c⟩
  | getPrediction => exact h
  | predictionResult => exact h
  | interface atInterface =>
    cases atInterface with
    | false => exact h
    | true =>
      rw [listen]
      split
      · exact h
      · refine ⟨fun v hv => ?_, List.not_mem_nil⟩
        rw [List.mem_append, List.mem_singleton] at hv
        rcases hv with hv | rfl
        · exact h.1 v hv
        · exact h.2

lemma heard_clean (calls : List Call) : ∀ w ∈ heard calls, 0 ∉ w := by
  have hclean : ∀ s : List Word × Word, ((∀ w ∈ s.1, 0 ∉ w) ∧ 0 ∉ s.2) →
      (∀ w ∈ (calls.foldl listen s).1, 0 ∉ w) ∧ 0 ∉ (calls.foldl listen s).2 := by
    induction calls with
    | nil => exact fun s hs => hs
    | cons c calls ih => exact fun s hs => ih _ (listen_clean hs c)
  exact (hclean ([], []) ⟨by simp, by simp⟩).1

lemma map_cStr_entries {ws : List Word} (h : ∀ w ∈ ws, 0 ∉ w) :
    (entries ws).map cStr = entries ws := by
  have hcStr : ∀ w : Word, 0 ∉ w → cStr w = w := fun w hw =>
    List.takeWhile_eq_self_iff.mpr fun c hc => decide_eq_true fun he => hw (he ▸ hc)
  rw [List.map_congr_left (g := id), List.map_id]
  intro w hw
  apply hcStr
  rcases mem_entries.mp hw with rfl | rfl | hmem
  · exact List.not_mem_nil
  · decide
  · exact h w hmem

structure Paired (m : BoundedCTModel) (ws : List Word) : Prop where
  kept : m.ct.tokens.Kept
  paired : m.Numbers (firsts ws) m.ct.tokens.dataList
  entered : ∀ n ∈ m.ct.tokens.dataList, n ∈ m.ct.tokens.dataMap

lemma Paired.getElem? {m : BoundedCTModel} {ws : List Word} (hf : Fitting m) (h : Paired m ws)
    {w : Word} {n i : ℕ} (hw : m.wordMap.lookup w = some n)
    (hn : m.ct.tokens.dataMap.lookup n = some i) : 1 ≤ i ∧ (firsts ws)[i - 1]? = some w := by
  obtain ⟨hpos, hget⟩ := h.kept.listed n i hn
  obtain ⟨hlen, hall⟩ := List.forall₂_iff_get.mp h.paired
  obtain ⟨hlt, rfl⟩ := List.getElem?_eq_some_iff.mp hget
  have hlt' : i - 1 < (firsts ws).length := hlen ▸ hlt
  have hsame := wordMap_injective hf _ _ _ hw (hall (i - 1) hlt' hlt)
  exact ⟨hpos, by rw [List.getElem?_eq_getElem hlt', hsame]; rfl⟩

lemma Paired.mem_dataMap_iff {m : BoundedCTModel} {ws : List Word} (hf : Fitting m)
    (h : Paired m ws) {w : Word} {n : ℕ} (hw : m.wordMap.lookup w = some n) :
    n ∈ m.ct.tokens.dataMap ↔ w ∈ ws := by
  constructor
  · intro hn
    obtain ⟨i, hi⟩ := Option.isSome_iff_exists.mp (AList.lookup_isSome.mpr hn)
    exact mem_firsts.mp (List.mem_of_getElem? (h.getElem? hf hw hi).2)
  · intro hmem
    obtain ⟨hlen, hall⟩ := List.forall₂_iff_get.mp h.paired
    obtain ⟨i, hi, rfl⟩ := List.getElem_of_mem (mem_firsts.mpr hmem)
    have hi' : i < m.ct.tokens.dataList.length := hlen ▸ hi
    have hsame := hall i hi hi'
    rw [List.get_eq_getElem, hw, Option.some.injEq] at hsame
    exact hsame ▸ h.entered _ (List.getElem_mem hi')

lemma Paired.concat {m m' : BoundedCTModel} {ws : List Word} (hf : Fitting m) (h : Paired m ws)
    {w : Word} {n : ℕ} (hw : m.wordMap.lookup w = some n) (hmap : m'.wordMap = m.wordMap)
    (htokens : m'.ct.tokens =
      if n ∈ m.ct.tokens.dataMap then m.ct.tokens else m.ct.tokens.number n) :
    Paired m' (ws ++ [w]) := by
  have hiff := h.mem_dataMap_iff hf hw
  by_cases hmem : w ∈ ws
  · rw [if_pos (hiff.mpr hmem)] at htokens
    refine ⟨htokens ▸ h.kept, ?_, by rw [htokens]; exact h.entered⟩
    rw [Numbers, firsts_concat, if_pos hmem, hmap, htokens]
    exact h.paired
  · rw [if_neg (fun hn => hmem (hiff.mp hn))] at htokens
    refine ⟨htokens ▸ h.kept.number n, ?_, ?_⟩
    · rw [Numbers, firsts_concat, if_neg hmem, hmap, htokens]
      exact List.rel_append h.paired (.cons hw .nil)
    · rw [htokens]
      intro k hk
      rcases List.mem_append.mp hk with hk | hk
      · exact (AList.mem_insert _).mpr (Or.inr (h.entered k hk))
      · exact (AList.mem_insert _).mpr (Or.inl (List.mem_singleton.mp hk))

lemma Paired.addWord {m : BoundedCTModel} {ws : List Word} (h : Paired m ws) :
    Paired m.addWord ws := by
  have hct : m.addWord.ct = m.ct := by rw [addWord_same]
  exact ⟨hct ▸ h.kept, hct ▸ Numbers.addWord h.paired, hct ▸ h.entered⟩

lemma Leads.last {m : BoundedCTModel} {us : List Word} {w : Word} {v : ℕ}
    (h : m.Leads (us ++ [w]) v) : (∃ u, IsChild m.ct.tree u v) ∧
      ∃ n, m.wordMap.lookup w = some n ∧
        m.ct.tokens.dataMap.lookup n = some (m.ct.tree.node v).token := by
  obtain ⟨ns, ts, hns, hts, hpath⟩ := h
  have hns' := List.forall₂_reverse_iff.mpr hns
  have hts' := List.forall₂_reverse_iff.mpr hts
  rw [List.reverse_append, List.reverse_singleton, List.singleton_append] at hns'
  cases hpath with
  | root =>
    rw [List.reverse_nil] at hts'
    rw [List.forall₂_nil_right_iff.mp hts'] at hns'
    cases hns'
  | @child u _ ts hup hchild =>
    rw [List.reverse_append, List.reverse_singleton, List.singleton_append] at hts'
    obtain ⟨n, rest, hn, -, hrest⟩ := List.forall₂_cons_left_iff.mp hns'
    rw [hrest] at hts'
    exact ⟨⟨u, hchild⟩, n, hn, (List.forall₂_cons.mp hts').1⟩

structure Quoted (m : BoundedCTModel) (log : List Commit) : Prop where
  wooded : m.ct.tree.Wooded
  unambiguous : Unambiguous m.nextWord rootNode
  quoted : ∀ v, v < m.ct.tree.length → ∃ s k, k ≤ log.length ∧
    s <+: contextBefore m.bound.toNat log k ∧ follow m.nextWord rootNode s = some v

lemma Quoted.of_same {m m' : BoundedCTModel} {log : List Commit} (h : Quoted m log)
    (hnext : m'.nextWord = m.nextWord) (htree : m'.ct.tree = m.ct.tree)
    (hbound : m'.bound = m.bound) : Quoted m' log := by
  refine ⟨htree ▸ h.wooded, hnext ▸ h.unambiguous, ?_⟩
  rw [htree, hnext, hbound]
  exact h.quoted

lemma Quoted.concat {m : BoundedCTModel} {log : List Commit} (h : Quoted m log) (e : Commit) :
    Quoted m (log ++ [e]) := by
  refine ⟨h.wooded, h.unambiguous, fun v hv => ?_⟩
  obtain ⟨s, k, hk, hs, hv⟩ := h.quoted v hv
  refine ⟨s, k, hk.trans (by simp), ?_, hv⟩
  rwa [contextBefore_concat _ _ e hk]

lemma Quoted.fed {m m' : BoundedCTModel} {log : List Commit} (hf : Fitting m) (h : Quoted m log)
    (hi : m.ct.tokens.Injective) {contextId : ℕ}
    (hp : Pending m.ct m.predictionContext contextId) (hpos : 0 < m.bound.toNat)
    (hfed : Fed p m false contextId (m.bound.toNat : ℤ) m')
    (hws : m.Numbers (contextBefore m.bound.toNat log log.length) m.predictionContext.reverse) :
    Quoted m' log := by
  cases hfed with
  | rejected => exact h
  | @settled con path members ha hc hr hcharged =>
    have hmap : members.wordMap = m.wordMap := by rw [hcharged.same]
    have hbound : members.bound = m.bound := by rw [hcharged.same]
    by_cases hint : m.predictionContext.length + 1 < 2 ^ 31
    · obtain ⟨hx, hwooded, hnew⟩ := settled_extended p members hf hi h.unambiguous hp hc hr hpos
        hint hmap hws
      refine ⟨hwooded h.wooded, hx.unambiguous, fun v hv => ?_⟩
      dsimp only
      rw [hbound]
      rcases hnew v hv with hold | hmem
      · obtain ⟨s, k, hk, hs, hv⟩ := h.quoted v hold
        exact ⟨s, k, hk, hs, hx.kept s v hv⟩
      · obtain ⟨s, ⟨-, hs⟩, hv⟩ := (hx.visited v).mp hmem
        exact ⟨s, log.length, le_rfl, hs, hv⟩
    · -- so long a context adds nothing
      have hnil := hp.newTokens_eq_nil hc hr (not_lt.mp hint) (m.bound.toNat : ℤ)
      have htree : (settled p.template m.ct contextId con path (m.bound.toNat : ℤ)).tree =
          m.ct.tree := by
        simp [settled, deactivateContext, hnil, addChain]
      refine h.of_same ?_ htree hbound
      rw [nextWord, nextWord]
      dsimp only
      rw [htree, hmap]
      rfl

lemma Corrected.quoted {m m₁ : BoundedCTModel} {log : List Commit} (hf : Fitting m)
    (h : Quoted m log) (hi : m.ct.tokens.Injective) (hh : Heard m log)
    (hpos : 0 < m.bound.toNat) (hsmall : m.bound.toNat < 2 ^ 31) (hc : Corrected p m m₁) :
    Quoted m₁ log := by
  have hct : m.addWord.ct = m.ct := by rw [addWord_same]
  have hbound : m.addWord.bound = m.bound := by rw [addWord_same]
  have hentered : Quoted m.addWord log := h.of_same (nextWord_addWord hf) (by rw [hct]) hbound
  cases hc with
  | right => exact hentered
  | wrong _ hfed =>
    have hblamed : Quoted (blamed m) log := hentered.of_same rfl rfl rfl
    by_cases hlog : log = []
    · subst hlog
      rwa [hh.unfed hfed]
    · obtain ⟨hpending, hfed', hws⟩ := hh.fed hlog hsmall hfed
      rw [← hbound] at hpos hws
      exact hblamed.fed p (blamed_fitting hf) (hct ▸ hi) hpending hpos hfed' hws

lemma StandsFor.lt {m : BoundedCTModel} {bound : ℕ} {log : List Commit} {v : ℕ} {w : Word}
    (hf : Fitting m) (h : m.StandsFor bound log v w) : v < m.ct.tree.length ∧ v ≠ m.ct.root := by
  obtain ⟨us, k, -, hleads⟩ := h
  obtain ⟨⟨u, hchild⟩, -⟩ := hleads.last
  obtain ⟨holder, hlt⟩ := hf.sound.ordered.older u v hchild
  refine ⟨hlt, ?_⟩
  rw [hf.sound.root_eq]
  omega

lemma StandsFor.mem {m : BoundedCTModel} {bound : ℕ} {log : List Commit} {v : ℕ} {w : Word}
    (h : m.StandsFor bound log v w) : w ∈ log.map (·.word) := by
  obtain ⟨us, k, hprefix, -⟩ := h
  have hmem : w ∈ contextBefore bound log k := hprefix.subset (by simp)
  have htaken := List.mem_reverse.mp (List.mem_of_mem_take hmem)
  rw [List.map_take] at htaken
  exact List.mem_of_mem_take htaken

lemma Quoted.standsFor {m : BoundedCTModel} {log : List Commit} (hf : Fitting m)
    (h : Quoted m log) {v : ℕ} (hv : v < m.ct.tree.length) (hne : v ≠ m.ct.root) :
    ∃ w, m.StandsFor m.bound.toNat log v w := by
  obtain ⟨s, k, -, hs, hfollow⟩ := h.quoted v hv
  rcases List.eq_nil_or_concat s with rfl | ⟨us, w, rfl⟩
  · rw [follow_nil, Option.some.injEq] at hfollow
    exact (hne (hfollow.symm.trans hf.sound.root_eq.symm)).elim
  · rw [List.concat_eq_append] at hs hfollow
    exact ⟨w, us, k, hs, (leads_iff hf h.wooded).mpr hfollow⟩

lemma Fed.root_token {m m' : BoundedCTModel} (h : Fitting m) {isRegret : Bool} {contextId : ℕ}
    {depth : ℤ} (hf : Fed p m isRegret contextId depth m') :
    (m'.ct.tree.node rootNode).token = (m.ct.tree.node rootNode).token := by
  cases hf with
  | rejected => rfl
  | settled _ _ hr _ => exact addChain_token p.template hr.leaf_lt _ _ h.sound.nonempty

lemma Stepped.root_token {m m' : BoundedCTModel} {c : Call} (h : Fitting m)
    (hs : Stepped p m c m') :
    (m'.ct.tree.node rootNode).token = (m.ct.tree.node rootNode).token := by
  rcases hs.tree_cases h with he | ⟨m₁, m₂, _, _, hct, hf₁, hf, he⟩
  · rw [he]
  · rw [he, hf.root_token p hf₁, hct]

lemma Stepped.bound_eq {m m' : BoundedCTModel} {c : Call} (hs : Stepped p m c m') :
    m'.bound = m.bound := by
  cases hs with
  | quiet he => rw [he]
  | regretted hf => rw [hf.same.1]
  | committed _ hcor _ hfor => exact hfor.bound_eq p hcor

lemma Foretold.tokens_eq {m m₁ m' : BoundedCTModel} {log : List Commit} (h : Fitting m)
    (hr : Recalled m.ct m.depth m.predictionContext.length log) (hh : Heard m log)
    (hpos : 0 < m.bound.toNat) (hsmall : m.bound.toNat < 2 ^ 31) (hc : Corrected p m m₁)
    {contextId : ℕ} {con : Context (List ℤ)} {t : ContextTree ℕ (List ℤ)} {word : ℕ}
    {data : List ℤ} (hfor : Foretold m₁.pushContext m' contextId con t word data) :
    m'.ct.tokens = if m.addWord.currentToken ∈ m.addWord.ct.tokens.dataMap then
      m.addWord.ct.tokens else m.addWord.ct.tokens.number m.addWord.currentToken := by
  have hct : m.addWord.ct = m.ct := by rw [addWord_same]
  have htokens : m₁.pushContext.ct.tokens = m.ct.tokens := hc.same.2.2
  have hhead : m₁.pushContext.predictionContext.reverse.head? = some m.addWord.currentToken := by
    obtain ⟨b, hb⟩ := Nat.exists_eq_succ_of_ne_zero (Nat.ne_of_gt hpos)
    rw [hc.context_reverse, hb, List.take_succ_cons, List.head?_cons]
  have hafter := hfor.made.tokens_eq (hc.missed h hr hpos hsmall) (hc.entered hh hpos) hhead
  rw [hct, ← htokens, ← hafter, hfor.result]
  rfl

structure Labelling (bound : UInt32) (s : BoundedCTModel × List Commit) : Prop where
  fitting : Fitting s.1 ∧ Complete s.1
  recalled : Recalled s.1.ct s.1.depth s.1.predictionContext.length s.2
  bound_eq : s.1.bound = bound
  words : s.1.words = entries (s.2.map (·.word))
  root : (s.1.ct.tree.node rootNode).token = rootToken
  bare : s.1.depth ≤ 0 → s.1.ct.tree.length = 1
  grown : 0 < s.1.bound.toNat → s.1.bound.toNat < 2 ^ 31 →
    Heard s.1 s.2 ∧ Paired s.1 (s.2.map (·.word)) ∧ Quoted s.1 s.2

lemma Labelling.commit {bound : UInt32} {m m₁ m' : BoundedCTModel} {log : List Commit}
    (h : Labelling bound (m, log)) (hpos : 0 < m.bound.toNat) (hsmall : m.bound.toNat < 2 ^ 31)
    (hcor : Corrected p m m₁) {contextId : ℕ} {con : Context (List ℤ)}
    {t : ContextTree ℕ (List ℤ)} {word : ℕ} {data : List ℤ}
    (hfor : Foretold m₁.pushContext m' contextId con t word data) {e : Commit}
    (hword : e.word = m.currentString) :
    Heard m' (log ++ [e]) ∧ Paired m' ((log ++ [e]).map (·.word)) ∧ Quoted m' (log ++ [e]) := by
  obtain ⟨hheard, hpaired, hquoted⟩ := h.grown hpos hsmall
  have hf : Fitting m := h.fitting.1
  have hi : m.ct.tokens.Injective := hpaired.kept.injective
  obtain ⟨hbound, hheard', -, hnext⟩ := hheard.commit p hf h.recalled hi hpos hsmall hcor hfor hword
  refine ⟨hheard', ?_, ?_⟩
  · have hmap : m'.wordMap = m.addWord.wordMap := by
      rw [hfor.result]
      change m₁.wordMap = _
      rw [hcor.same.1]
    rw [List.map_append, List.map_singleton, hword]
    exact hpaired.addWord.concat (addWord_fitting hf) (addWord_lookup m) hmap
      (hfor.tokens_eq p hf h.recalled hheard hpos hsmall hcor)
  · have hcorrected := hcor.quoted p hf hquoted hi hheard hpos hsmall
    exact (hcorrected.of_same hnext hfor.tree_eq (hbound.trans (hcor.bound_eq).symm)).concat e

lemma Labelling.step {bound : UInt32} {m m' : BoundedCTModel} {log : List Commit} {c : Call}
    (h : Labelling bound (m, log)) (hears : c.hears = true)
    (he : BoundedCTModel.step p m c = .ok m') : Labelling bound (m', log ++ commits p m c m') := by
  obtain ⟨hf, hc⟩ := h.fitting
  have hs := Stepped.of_ok p hf hc he
  have hbound := hs.bound_eq p
  have hdepth : m'.depth = m.depth := by rw [depth, depth, hbound]
  refine ⟨hs.fitting p hf hc, hs.recalled p hf h.recalled, hbound.trans h.bound_eq,
    hs.entries p hf h.words, (hs.root_token p hf).trans h.root, fun hle => ?_, ?_⟩
  · rw [hdepth] at hle
    exact (hs.tree_length p hf hle).trans (h.bare hle)
  · dsimp only
    rw [hbound]
    intro hpos hsmall
    rcases hs.hearing hears with ⟨he, hn⟩ | ⟨_, _, _, _, _, _, e, hcor, hfor, hn, hword, -⟩
    · obtain ⟨hh, hp, hq⟩ := h.grown hpos hsmall
      rw [hn, List.append_nil, he]
      exact ⟨⟨hh.context, hh.entered, hh.none, hh.latest⟩, ⟨hp.kept, hp.paired, hp.entered⟩,
        hq.of_same rfl rfl rfl⟩
    · rw [hn]
      exact h.commit p hpos hsmall hcor hfor hword

lemma fresh_labelling (bound : UInt32) (predictionId : ℕ) :
    Labelling bound (fresh bound predictionId, []) where
  fitting := ⟨fresh_fitting bound predictionId, rfl⟩
  recalled := ⟨⟨_, fresh_leveled [] 20 _ 0⟩, by simp [fresh, ContextTree.fresh]⟩
  bound_eq := rfl
  words := rfl
  root := rfl
  bare _ := rfl
  grown _ _ := by
    have ht := fresh_tabled bound predictionId
    refine ⟨fresh_heard bound predictionId, ⟨⟨rfl, by simp [fresh, ContextTree.fresh]⟩, .nil, ?_⟩,
      ht.wooded, ht.unambiguous, fun v hv => ?_⟩
    · simp [fresh, ContextTree.fresh]
    · obtain rfl : v = 0 := by simpa [fresh, ContextTree.fresh] using hv
      exact ⟨[], 0, le_rfl, List.nil_prefix, rfl⟩

variable {p} in
lemma Reached.labelling {bound : UInt32} {predictionId : ℕ} {calls : List Call}
    {s : BoundedCTModel × List Commit}
    (h : Reached p (fun _ c => c.hears = true) bound predictionId calls s) :
    Labelling bound s := by
  refine Runs.Run.traced_invariant h ?_ (fresh_labelling bound predictionId)
  exact fun m log c m' hl hears he => hl.step p hears he

lemma Paired.label_iff {m : BoundedCTModel} {bound : ℕ} {log : List Commit} {v : ℕ} {w : Word}
    (hf : Fitting m) (h : Paired m (log.map (·.word)))
    (hwords : m.words = entries (log.map (·.word))) (hs : m.StandsFor bound log v w) :
    m.words[(m.ct.tree.node v).token + reservedTokens]? = some w ↔
      w ∈ (log.map (·.word)).takeWhile (· ≠ interfaceToken) := by
  obtain ⟨us, k, -, hleads⟩ := hs
  obtain ⟨-, n, hw, hn⟩ := hleads.last
  obtain ⟨hpos, hget⟩ := h.getElem? hf hw hn
  obtain ⟨i, hi⟩ := Nat.exists_eq_add_of_le' hpos
  rw [hi, Nat.add_sub_cancel] at hget
  rw [hwords, hi]
  exact getElem?_filter_firsts hget

lemma writeSummary_exists {m : BoundedCTModel}
    (h : ∀ v, v < m.ct.tree.length → (m.ct.tree.node v).token + reservedTokens < m.words.length) :
    ∃ m' drawing, m.writeSummary = .ok (m', drawing) := by
  have hnames : (m.words.map cStr).length = m.words.length := List.length_map _
  obtain ⟨ct, drawing, hwrite⟩ := writeGraph_exists (hnames ▸ h)
  exact ⟨{ m with ct := ct }, drawing, by rw [writeSummary, hwrite]; rfl⟩

lemma writeSummary_labels {m m' : BoundedCTModel} {drawing : Drawing Word}
    (he : m.writeSummary = .ok (m', drawing)) {v : ℕ} (hv : v < m.ct.tree.length) :
    drawing.labels[v]? =
      (m.words.map cStr)[(m.ct.tree.node v).token + reservedTokens]? := by
  obtain ⟨⟨ct, _⟩, hwrite, hr⟩ := bind_eq_ok.mp he
  obtain ⟨-, rfl⟩ := Prod.mk.inj (Except.ok.inj hr)
  exact writeGraph_labels hwrite hv

section Law

variable {p} {bound : UInt32} {m : BoundedCTModel} {log : List Commit}

lemma Labelling.grown_of_lt (h : Labelling bound (m, log)) {v : ℕ} (hv : v < m.ct.tree.length)
    (hne : v ≠ m.ct.root) : Heard m log ∧ Paired m (log.map (·.word)) ∧ Quoted m log := by
  have hdepth : 0 < m.depth := by
    by_contra hle
    have hbare : m.ct.tree.length = 1 := h.bare (not_lt.mp hle)
    have hroot : m.ct.root = rootNode := h.fitting.1.sound.root_eq
    have hz : rootNode = 0 := rfl
    omega
  have hle := depth_le m
  refine h.grown (by dsimp only; omega) (lt_of_not_ge fun hlarge => ?_)
  exact absurd (depth_nonpos hlarge) (not_le.mpr hdepth)

lemma Labelling.label_iff (h : Labelling bound (m, log)) {v : ℕ} {w : Word}
    (hs : m.StandsFor bound.toNat log v w) :
    m.words[(m.ct.tree.node v).token + reservedTokens]? = some w ↔
      w ∈ (log.map (·.word)).takeWhile (· ≠ interfaceToken) := by
  have hf : Fitting m := h.fitting.1
  obtain ⟨hv, hne⟩ := hs.lt hf
  obtain ⟨-, hpaired, -⟩ := h.grown_of_lt hv hne
  exact hpaired.label_iff hf h.words hs

lemma Labelling.standsFor (h : Labelling bound (m, log)) {v : ℕ} (hv : v < m.ct.tree.length)
    (hne : v ≠ m.ct.root) : ∃ w, m.StandsFor bound.toNat log v w := by
  obtain ⟨-, -, hquoted⟩ := h.grown_of_lt hv hne
  have hbound : m.bound = bound := h.bound_eq
  exact hbound ▸ hquoted.standsFor h.fitting.1 hv hne

lemma Labelling.labelled_iff (h : Labelling bound (m, log))
    (hclean : ∀ w ∈ log.map (·.word), 0 ∉ w) : Labelled m bound.toNat log ↔
      ∀ v w, m.StandsFor bound.toNat log v w →
        w ∈ (log.map (·.word)).takeWhile (· ≠ interfaceToken) := by
  have hwords : m.words = entries (log.map (·.word)) := h.words
  have hnames : m.words.map cStr = m.words := by rw [hwords, map_cStr_entries hclean]
  constructor
  · rintro ⟨m', drawing, hwrite, hlabels⟩ v w hs
    obtain ⟨hv, hne⟩ := hs.lt h.fitting.1
    rw [← h.label_iff hs, ← hnames, ← writeSummary_labels hwrite hv]
    exact (hlabels v hv hne).2 w hs
  · intro hall
    have hread : ∀ v, v < m.ct.tree.length →
        (m.ct.tree.node v).token + reservedTokens < m.words.length := by
      intro v hv
      by_cases hroot : v = m.ct.root
      · have htoken : (m.ct.tree.node rootNode).token = rootToken := h.root
        rw [hroot, h.fitting.1.sound.root_eq, hwords, entries]
        change (m.ct.tree.node rootNode).token + reservedTokens < _
        rw [htoken]
        simp [rootToken, reservedTokens]
      · obtain ⟨w, hs⟩ := h.standsFor hv hroot
        exact (List.getElem?_eq_some_iff.mp ((h.label_iff hs).mpr (hall v w hs))).1
    obtain ⟨m', drawing, hwrite⟩ := writeSummary_exists hread
    refine ⟨m', drawing, hwrite, fun v hv hne => ⟨h.standsFor hv hne, fun w hs => ?_⟩⟩
    rw [writeSummary_labels hwrite hv, hnames]
    exact (h.label_iff hs).mpr (hall v w hs)

end Law

theorem labels_law (bound : UInt32) (predictionId : ℕ) (calls : List Call) (m : BoundedCTModel)
    (log : List Commit)
    (h : Reached p (fun _ c => c.hears = true) bound predictionId calls (m, log)) :
    Labelled m bound.toNat log ↔ ∀ v w, m.StandsFor bound.toNat log v w →
      w ∈ (log.map (·.word)).takeWhile (· ≠ interfaceToken) := by
  apply h.labelling.labelled_iff
  have hheard : log.map (·.word) = heard calls := h.heard
  rw [hheard]
  exact heard_clean calls

theorem labels_law_pair : ∃ s : BoundedCTModel × List Commit,
    Reached ⟨fun _ _ _ => 0, .dropped⟩ (fun _ c => c.hears = true) 5 7
      [.putc 97, .interface true, .putc 98, .interface true] s ∧
    1 < s.1.ct.tree.length ∧ Labelled s.1 5 s.2 := by
  have h : Reached ⟨fun _ _ _ => 0, .dropped⟩ (fun _ c => c.hears = true) 5 7
      [.putc 97, .interface true, .putc 98, .interface true] (_, _) :=
    .cons rfl rfl (.cons rfl rfl (.cons rfl rfl (.cons rfl rfl .nil)))
  refine ⟨_, h, by decide, (labels_law _ 5 7 _ _ _ h).mpr fun v w hs => ?_⟩
  -- the literal was not committed, so that every word comes before it
  exact hs.mem

theorem labels_law_fails : ¬ ∀ (bound : UInt32) (predictionId : ℕ) (calls : List Call)
    (m : BoundedCTModel) (log : List Commit),
    Reached ⟨fun _ _ _ => 0, .dropped⟩ (fun _ c => c.hears = true) bound predictionId calls
      (m, log) → Labelled m bound.toNat log := by
  -- the literal has its number from the start, and the tree numbers it with the words
  intro h
  have hrun : Reached ⟨fun _ _ _ => 0, .dropped⟩ (fun _ c => c.hears = true) 5 7
      ([interfaceToken, [97]].flatMap spell) (_, _) :=
    .cons rfl rfl (.cons rfl rfl (.cons rfl rfl (.cons rfl rfl (.cons rfl rfl (.cons rfl rfl
      (.cons rfl rfl (.cons rfl rfl (.cons rfl rfl (.cons rfl rfl (.cons rfl rfl (.cons rfl rfl
      (.cons rfl rfl (.cons rfl rfl (.cons rfl rfl (.cons rfl rfl (.cons rfl rfl (.cons rfl rfl
      (.cons rfl rfl (.cons rfl rfl (.cons rfl rfl (.cons rfl rfl .nil)))))))))))))))))))))
  obtain ⟨m', drawing, hwrite, hlabels⟩ := h 5 7 _ _ _ hrun
  have hliteral := (hlabels 1 (by decide) (by decide)).2 interfaceToken
    ⟨[], 1, by decide, [1], [1], .cons rfl .nil, .cons rfl .nil, .child .root (Or.inl (by decide))⟩
  rw [← (Prod.mk.inj (Except.ok.inj hwrite)).2] at hliteral
  exact absurd hliteral (by decide)

end WordModel.BoundedCTModel
