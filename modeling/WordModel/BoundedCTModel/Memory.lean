import WordModel.BoundedCTModel.Labels
import Mathlib.Data.List.Perm.Subperm

/-! How much the model stores: what its mistakes, and the regrets it was sent, have paid
for, whatever else it heard. -/

namespace WordModel.BoundedCTModel

open Checked ContextTree

def stored (weights : List (AList fun _ : ℕ => ℤ)) : ℕ :=
  (weights.map (fun ws => ws.keys.length)).sum

lemma chargeWord_keys_length (word : ℕ) (amount : ℤ) (ws : AList fun _ : ℕ => ℤ) :
    (chargeWord word amount ws).keys.length ≤ ws.keys.length + 1 := by
  have herase : (ws.keys.erase word).length ≤ ws.keys.length := List.length_erase_le
  rw [chargeWord]
  split
  · rw [AList.keys_insert, List.length_cons]
    omega
  · rw [AList.keys_insert, List.length_cons]
    omega

lemma stored_modify_le (weights : List (AList fun _ : ℕ => ℤ)) (i word : ℕ) (amount : ℤ) :
    stored (weights.modify i (chargeWord word amount)) ≤ stored weights + 1 := by
  induction weights generalizing i with
  | nil =>
    rw [List.modify_nil]
    omega
  | cons ws weights ih =>
    cases i with
    | zero =>
      have := chargeWord_keys_length word amount ws
      simp only [stored, List.modify_zero_cons, List.map_cons, List.sum_cons]
      omega
    | succ i =>
      have := ih i
      simp only [stored, List.modify_succ_cons, List.map_cons, List.sum_cons] at this ⊢
      omega

def entriesMade : Callback → ℕ
  | .pushRegret node _ | .pushReinforce node _ => if node = rootNode then 0 else 1
  | .addNode _ _ _ => 1
  | _ => 0

lemma pushFeedback_stored {o : Overrun} {amount : ℤ} {m : Members} {node : ℕ} {data : List ℤ}
    {r : Members × List ℤ} (he : pushFeedback o amount m node data = .ok r) :
    stored r.1.weights ≤ stored m.weights + if node = rootNode then 0 else 1 := by
  rw [pushFeedback] at he
  split at he
  · rename_i hn
    obtain ⟨rootWeights, _, he⟩ := bind_eq_ok.mp he
    obtain rfl := Except.ok.inj he
    rw [if_pos hn]
    exact le_rfl
  · rename_i hn
    obtain ⟨weights, hupdate, he⟩ := bind_eq_ok.mp he
    obtain rfl := Except.ok.inj he
    rw [update] at hupdate
    split at hupdate
    · obtain rfl := Except.ok.inj hupdate
      rw [if_neg hn]
      exact stored_modify_le _ _ _ _
    · cases hupdate

lemma visit_stored {o : Overrun} {c : Callback} {m : Members} {data : List ℤ}
    {r : Members × List ℤ} (he : (visitor o).visit c (m, data) = .ok r) :
    stored r.1.weights ≤ stored m.weights + entriesMade c := by
  cases c with
  | startPredict =>
    obtain ⟨_, _, he⟩ := bind_eq_ok.mp he
    obtain rfl := Except.ok.inj he
    exact le_rfl
  | pushPredict node k =>
    change pushPredict m node data = .ok r at he
    rw [pushPredict] at he
    split at he
    · obtain ⟨_, _, he⟩ := bind_eq_ok.mp he
      obtain ⟨_, _, he⟩ := bind_eq_ok.mp he
      obtain rfl := Except.ok.inj he
      exact le_rfl
    · obtain rfl := Except.ok.inj he
      exact le_rfl
  | finishPredict =>
    obtain ⟨_, _, he⟩ := bind_eq_ok.mp he
    obtain rfl := Except.ok.inj he
    exact le_rfl
  | pushRegret node k => exact pushFeedback_stored he
  | pushReinforce node k => exact pushFeedback_stored he
  | addNode node k regret =>
    have hgrown : stored (m.weights ++ [∅]) = stored m.weights := by
      simp [stored]
    have hle : (if node = rootNode then 0 else 1) ≤ 1 := by
      split <;> omega
    change addNode o m node data regret = .ok r at he
    rw [addNode] at he
    split at he
    · have := pushFeedback_stored he
      simp only [hgrown] at this
      exact this.trans (Nat.add_le_add_left hle _)
    · have := pushFeedback_stored he
      simp only [hgrown] at this
      exact this.trans (Nat.add_le_add_left hle _)

lemma deliver_stored {o : Overrun} {contextId : ℕ} {calls : List Callback}
    {t : ContextTree ℕ (List ℤ)} {m : Members} {s : ContextTree ℕ (List ℤ) × Members}
    (he : deliver (visitor o) contextId (t, m) calls = .ok s) :
    stored s.2.weights ≤ stored m.weights + (calls.map entriesMade).sum := by
  induction calls generalizing t m with
  | nil =>
    obtain rfl := Except.ok.inj he
    exact le_rfl
  | cons c calls ih =>
    rw [deliver, List.foldlM_cons] at he
    obtain ⟨⟨t', m'⟩, hc, he⟩ := bind_eq_ok.mp he
    obtain ⟨con, _, hc⟩ := bind_eq_ok.mp hc
    obtain ⟨⟨m₁, data⟩, hvisit, hc⟩ := bind_eq_ok.mp hc
    obtain ⟨rfl, rfl⟩ := Prod.mk.inj (Except.ok.inj hc)
    have hfirst := visit_stored hvisit
    have hrest := ih he
    dsimp only at hfirst
    rw [List.map_cons, List.sum_cons]
    omega

lemma settleCalls_entriesMade {push : ℕ → ℕ → Callback} {isRegret : Bool}
    (hpush : Pushes push isRegret) {path : List ℕ} (hhead : path.head? = some rootNode)
    (first count : ℕ) :
    ((settleCalls push isRegret path first count).map entriesMade).sum ≤
      path.length - 1 + count := by
  have hcall (v k : ℕ) : entriesMade (push v k) = if v = rootNode then 0 else 1 := by
    rw [hpush]
    cases isRegret <;> rfl
  have hwalk (vs : List ℕ) (i : ℕ) :
      ((vs.mapIdx (fun k v => push v (i + k))).map entriesMade).sum ≤ vs.length := by
    induction vs generalizing i with
    | nil => simp
    | cons v vs ih =>
      have := ih (i + 1)
      have hle : (if v = rootNode then 0 else 1) ≤ 1 := by
        split <;> omega
      simp only [List.mapIdx_cons, List.map_cons, List.sum_cons, hcall, List.length_cons,
        Nat.add_assoc, Nat.add_comm 1, Nat.add_zero] at this ⊢
      omega
  have hnew : (((List.range' first count).map
      (fun v => Callback.addNode v path.length isRegret)).map entriesMade).sum = count := by
    rw [List.map_map, show (entriesMade ∘ fun v => Callback.addNode v path.length isRegret) =
      fun _ => 1 from rfl]
    simp
  rw [settleCalls, List.map_append, List.sum_append, hnew]
  cases path with
  | nil => cases hhead
  | cons v path =>
    obtain rfl := Option.some.inj hhead
    have := hwalk path 1
    simp only [Nat.add_comm 1] at this
    simp only [List.mapIdx_cons, List.map_cons, List.sum_cons, hcall, ↓reduceIte, Nat.zero_add,
      List.length_cons, Nat.add_sub_cancel]
    omega

lemma settlement_le {t : ContextTree ℕ (List ℤ)} {depth : ℤ} {most : ℕ} {level : ℕ → ℕ}
    (hl : Leveled t depth most level) {contextId : ℕ} (ha : contextId ∈ t.activeIds)
    {con : Context (List ℤ)} (hc : t.contexts[contextId]? = some con) {path : List ℕ}
    (hr : Recorded t.tree con path) :
    path.length - 1 + (newTokens con path.length depth).length ≤ (depth - 1).toNat := by
  have hpos := hr.length_pos
  have hlevel : level con.leaf = path.length - 1 := by
    refine (hl.paths contextId ha con hc path hr).1 _ _ ?_
    rw [← List.getLast?_eq_getElem?]
    exact hr.leaf
  have hshallow : path.length - 1 = 0 ∨ ((path.length - 1 : ℕ) : ℤ) < depth := by
    by_cases hz : con.leaf = 0
    · left
      rw [← hlevel, hz]
      exact hl.root
    · right
      rw [← hlevel]
      exact (hl.shallow con.leaf hr.leaf_lt hz).1
  rw [hr.newTokens_length, additionRounds]
  split <;> omega

variable (p : Platform)

structure Spends (m m' : BoundedCTModel) (n : ℕ) : Prop where
  active : m'.ct.activeIds.length + n = m.ct.activeIds.length
  vertices : m'.weights.length ≤ m.weights.length + (m.depth - 1).toNat * n
  entries : stored m'.weights ≤ stored m.weights + (m.depth - 1).toNat * n

lemma serveTree_spends {m m' : BoundedCTModel} (h : Fitting m) {isRegret : Bool} {contextId : ℕ}
    {most : ℕ} {level : ℕ → ℕ} (hl : Leveled m.ct m.depth most level)
    (he : serveTree p m (request isRegret contextId m.depth) = .ok m') :
    ∃ n, n ≤ 1 ∧ Spends m m' n := by
  have hf := Fed.of_ok p h he
  obtain ⟨push, hpush, heq⟩ := serveTree_eq p m isRegret contextId m.depth
  rw [heq] at he
  obtain ⟨⟨t, calls⟩, hsettle, he⟩ := bind_eq_ok.mp he
  obtain ⟨⟨ct, members⟩, hdeliver, he⟩ := bind_eq_ok.mp he
  have hstored : stored m'.weights ≤ stored m.weights + (calls.map entriesMade).sum := by
    rw [← Except.ok.inj he]
    exact deliver_stored hdeliver
  rcases h.sound.settle_cases p.template push isRegret contextId m.depth with
    ⟨hn, _, hs⟩ | ⟨_, hs⟩ | ⟨con, path, ha, hc, hr, hs⟩
  · rw [hs, Except.ok.injEq, Prod.mk.injEq] at hsettle
    obtain ⟨-, rfl⟩ := hsettle
    cases hf with
    | rejected => exact ⟨0, Nat.zero_le 1, ⟨rfl, Nat.le_refl _, hstored⟩⟩
    | settled ha => exact (hn ha).elim
  · rw [hs] at hsettle
    cases hsettle
  · rw [hs, Except.ok.injEq, Prod.mk.injEq] at hsettle
    obtain ⟨-, rfl⟩ := hsettle
    have hmade := settleCalls_entriesMade hpush hr.rooted m.ct.vertexNumber
      (newTokens con path.length m.depth).length
    cases hf with
    | rejected hn => exact (hn ha).elim
    | @settled con' path' members' ha' hc' hr' hcharged =>
      have hnew := settlement_le hl ha' hc' hr'
      obtain rfl : con' = con := Option.some.inj (hc'.symm.trans hc)
      obtain rfl := hr'.unique hr
      refine ⟨1, Nat.le_refl 1, ⟨?_, ?_, ?_⟩⟩
      · exact List.length_erase_add_one ha
      · rw [Nat.mul_one]
        have := hcharged.length
        dsimp only
        omega
      · rw [Nat.mul_one]
        omega

def Call.regrets : Call → Bool
  | .predictionResult _ outcome => !outcome
  | _ => false

/-- What is stored has been paid for by `n` settlements, each of a prediction of its own. -/
structure Paid (m : BoundedCTModel) (regrets commits n : ℕ) : Prop where
  words : m.words.length ≤ 2 + m.mistakes
  feedback : n ≤ m.mistakes + regrets
  predictions : n + m.ct.activeIds.length ≤ commits
  vertices : m.weights.length ≤ (m.depth - 1).toNat * n
  entries : stored m.weights ≤ (m.depth - 1).toNat * n

lemma fresh_paid (bound : UInt32) (predictionId : ℕ) : Paid (fresh bound predictionId) 0 0 0 where
  words := by simp [fresh]
  feedback := Nat.zero_le _
  predictions := by simp [fresh, ContextTree.fresh]
  vertices := by simp [fresh]
  entries := by simp [fresh, stored]

lemma Paid.settle {m m' : BoundedCTModel} {regrets regrets' commits n k : ℕ}
    (h : Paid m regrets commits n) (hdepth : m'.depth = m.depth)
    (hwords : m'.words.length ≤ 2 + m'.mistakes) (hone : k ≤ 1)
    (hpaid : m'.mistakes + regrets' = m.mistakes + regrets + 1) (hspends : Spends m m' k) :
    Paid m' regrets' commits (n + k) := by
  refine ⟨hwords, ?_, ?_, ?_, ?_⟩
  · have := h.feedback
    omega
  · have := h.predictions
    have := hspends.active
    omega
  · rw [hdepth, Nat.mul_add]
    exact hspends.vertices.trans (Nat.add_le_add_right h.vertices _)
  · rw [hdepth, Nat.mul_add]
    exact hspends.entries.trans (Nat.add_le_add_right h.entries _)

-- Only a mistake can be a word not heard before.
lemma addWord_words_length {m : BoundedCTModel} (h : m.words.length ≤ 2 + m.mistakes) :
    m.addWord.words.length ≤ 2 + m.mistakes + if Mistaken m then 1 else 0 := by
  cases hw : m.wordMap.lookup m.currentString with
  | some n =>
    rw [(addWord_of_some hw).1]
    exact h.trans (Nat.le_add_right _ _)
  | none =>
    have hm : Mistaken m := by
      rw [Mistaken, hw]
      simp
    rw [addWord_eq_of_none hw, if_pos hm]
    simpa using h

lemma correct_paid {m m₁ : BoundedCTModel} (hfit : Fitting m) {most : ℕ} {level : ℕ → ℕ}
    (hl : Leveled m.ct m.depth most level) {regrets commits n : ℕ} (h : Paid m regrets commits n)
    (he : correct p m.addWord = .ok m₁) : ∃ n', Paid m₁ regrets commits n' := by
  have hwords := addWord_words_length h.words
  have hadded := addWord_same m
  by_cases hm : Mistaken m
  · have hct : (blamed m).ct = m.ct := by rw [blamed, hadded]
    have hdepth : (blamed m).depth = m.depth := by
      rw [blamed, hadded]
      rfl
    have hserve : serveTree p (blamed m) (request false m.predictionId (blamed m).depth) =
        .ok m₁ := by
      have hid : m.addWord.predictionId = m.predictionId := by rw [hadded]
      rw [correct, if_pos ((mistaken_iff hfit).mp hm)] at he
      rw [← hid]
      exact he
    have hlevel : Leveled (blamed m).ct (blamed m).depth most level := by
      rw [hct, hdepth]
      exact hl
    obtain ⟨k, hone, hspends⟩ := serveTree_spends p (blamed_fitting hfit) hlevel hserve
    have hsame := (Fed.of_ok p (blamed_fitting hfit) hserve).same.1
    have hspends' : Spends m m₁ k := by
      refine ⟨?_, ?_, ?_⟩
      · rw [hspends.active, hct]
      · have := hspends.vertices
        rwa [hdepth, blamed, hadded] at this
      · have := hspends.entries
        rwa [hdepth, blamed, hadded] at this
    have hmistakes : m₁.mistakes = m.mistakes + 1 := by
      rw [hsame, blamed, hadded]
    rw [if_pos hm] at hwords
    refine ⟨_, h.settle ?_ ?_ hone (by omega) hspends'⟩
    · rw [← hdepth, hsame]
      rfl
    · have : m₁.words = m.addWord.words := by
        rw [hsame]
        rfl
      rw [this]
      omega
  · rw [correct, if_neg (fun hne => hm ((mistaken_iff hfit).mpr hne))] at he
    obtain rfl := Except.ok.inj he
    rw [if_neg hm] at hwords
    refine ⟨n, ?_⟩
    rw [hadded] at hwords ⊢
    exact ⟨hwords, h.feedback, h.predictions, h.vertices, h.entries⟩

lemma Foretold.active_length {m m' : BoundedCTModel} {contextId : ℕ} {con : Context (List ℤ)}
    {t : ContextTree ℕ (List ℤ)} {word : ℕ} {data : List ℤ}
    (h : Foretold m m' contextId con t word data) :
    m'.ct.activeIds.length ≤ m.ct.activeIds.length + 1 := by
  obtain ⟨flushed, active, hold, hnew, -⟩ := h.made.kept
  have hactive : m'.ct.activeIds = t.activeIds := by
    rw [h.result]
    rfl
  rw [hactive, hold, hnew, List.length_append, List.length_append, List.length_singleton]
  omega

lemma Stepped.paid {m m' : BoundedCTModel} {c : Call} (hfit : Fitting m) {most : ℕ}
    {level : ℕ → ℕ} (hl : Leveled m.ct m.depth most level) {regrets commits n : ℕ}
    (h : Paid m regrets commits n) (hs : Stepped p m c m') (he : step p m c = .ok m') :
    ∃ n', Paid m' (regrets + if c.regrets then 1 else 0)
      (commits + (BoundedCTModel.commits p m c m').length) n' := by
  cases hs with
  | quiet hsame _ hn =>
    refine ⟨n, ?_⟩
    rw [hn m', hsame]
    exact ⟨h.words, h.feedback.trans (Nat.add_le_add_left (Nat.le_add_right regrets _) _),
      h.predictions, h.vertices, h.entries⟩
  | @regretted contextId _ hf =>
    have hserve : serveTree p m (request true contextId m.depth) = .ok m' := he
    obtain ⟨k, hone, hspends⟩ := serveTree_spends p hfit hl hserve
    have hsame := hf.same.1
    refine ⟨_, h.settle ?_ ?_ hone ?_ hspends⟩
    · rw [hsame]
      rfl
    · rw [hsame]
      exact h.words
    · rw [hsame]
      rfl
  | @committed m₁ _ contextId con t word data hpos hcor hprepare hfor =>
    obtain ⟨m₂, hcorrect, hpush⟩ := bind_eq_ok.mp hprepare
    have hpush := Except.ok.inj hpush
    obtain ⟨n', hpaid⟩ := correct_paid p hfit hl h hcorrect
    have hactive := hfor.active_length
    rw [← hpush] at hactive
    have hm' : m'.words = m₂.pushContext.words ∧ m'.mistakes = m₂.pushContext.mistakes ∧
        m'.weights = m₂.pushContext.weights ∧ m'.bound = m₂.pushContext.bound := by
      rw [hpush, hfor.result]
      exact ⟨rfl, rfl, rfl, rfl⟩
    obtain ⟨hwords, hmistakes, hweights, hbound⟩ := hm'
    have hdepth : m'.depth = m₂.depth := by
      rw [depth, hbound]
      rfl
    refine ⟨n', ?_, ?_, ?_, ?_, ?_⟩
    · rw [hwords, hmistakes]
      exact hpaid.words
    · rw [hmistakes]
      exact hpaid.feedback
    · rw [commits_committed p hpos hprepare]
      have := hpaid.predictions
      change m'.ct.activeIds.length ≤ m₂.ct.activeIds.length + 1 at hactive
      rw [List.length_singleton]
      omega
    · rw [hdepth, hweights]
      exact hpaid.vertices
    · rw [hdepth, hweights]
      exact hpaid.entries

lemma dataMap_length {m : BoundedCTModel} (h : Fitting m) :
    m.ct.tokens.dataMap.keys.length ≤ m.words.length := by
  have hsub : m.ct.tokens.dataMap.keys ⊆ List.range m.words.length := by
    intro n hn
    rw [List.mem_range, h.words_length]
    exact h.dataMap n (AList.mem_keys.mpr hn)
  have hle := (m.ct.tokens.dataMap.nodupKeys.subperm hsub).length_le
  rwa [List.length_range] at hle

/-- Vertices and entries are paid for by settlements, at a price of one less than the bound (of
nothing from `2 ^ 31` on, where the depth is negative), of which there is at most one for each
word heard, and one for each mistake or regret. -/
theorem memory_law (bound : UInt32) (predictionId : ℕ) (calls : List Call)
    (s : BoundedCTModel × List Commit)
    (h : Reached p (fun _ _ => True) bound predictionId calls s) :
    s.1.words.length ≤ 2 + s.1.mistakes ∧ s.1.rootWeights.length = s.1.words.length ∧
      s.1.ct.tokens.dataMap.keys.length ≤ s.1.words.length ∧
      s.1.ct.tree.length = s.1.weights.length + 1 ∧
      s.1.weights.length ≤ (bound.toInt32.toInt - 1).toNat *
        min (s.1.mistakes + calls.countP Call.regrets) (s.2.length - s.1.ct.activeIds.length) ∧
      stored s.1.weights ≤ (bound.toInt32.toInt - 1).toNat *
        min (s.1.mistakes + calls.countP Call.regrets) (s.2.length - s.1.ct.activeIds.length) := by
  have hbound : s.1.bound = bound := by
    refine h.invariant (P := fun s => s.1.bound = bound) ?_ rfl
    exact fun m log c m' _ _ hb _ _ hs => (hs.bound_eq p).trans hb
  obtain ⟨hf, hc, -, n, hpaid⟩ : Fitting s.1 ∧ Complete s.1 ∧
      Recalled s.1.ct s.1.depth s.1.predictionContext.length s.2 ∧
      ∃ n, Paid s.1 (calls.countP Call.regrets) s.2.length n := by
    refine Runs.Run.history (P := fun calls (s : BoundedCTModel × List Commit) =>
      Fitting s.1 ∧ Complete s.1 ∧ Recalled s.1.ct s.1.depth s.1.predictionContext.length s.2 ∧
        ∃ n, Paid s.1 (calls.countP Call.regrets) s.2.length n) h ?_
      ⟨fresh_fitting bound predictionId, rfl,
        ⟨⟨_, fresh_leveled [] 20 _ 0⟩, by simp [fresh, ContextTree.fresh]⟩,
        0, fresh_paid bound predictionId⟩
    rintro calls ⟨m, log⟩ c ⟨m', log'⟩ ⟨hf, hc, hr, n, hp⟩ _ he
    obtain ⟨he, hlog⟩ := Runs.traced_eq_ok.mp he
    dsimp only at hf hc hr hp he hlog ⊢
    have hs := Stepped.of_ok p hf hc he
    obtain ⟨hf', hc'⟩ := hs.fitting p hf hc
    obtain ⟨level, hl⟩ := hr.leveled
    refine ⟨hf', hc', hlog ▸ hs.recalled p hf hr, ?_⟩
    rw [List.countP_append, List.countP_singleton, hlog, List.length_append]
    exact hs.paid p hf hl hp he
  have hdepth : s.1.depth = bound.toInt32.toInt := by rw [depth, hbound]
  have hn : n ≤ min (s.1.mistakes + calls.countP Call.regrets)
      (s.2.length - s.1.ct.activeIds.length) :=
    le_min hpaid.feedback (Nat.le_sub_of_add_le hpaid.predictions)
  rw [← hdepth]
  refine ⟨hpaid.words, ?_, dataMap_length hf, hf.weights_length.symm,
    hpaid.vertices.trans (Nat.mul_le_mul_left _ hn), hpaid.entries.trans (Nat.mul_le_mul_left _ hn)⟩
  rw [hc, hf.words_length]

theorem memory_law_three : ∃ s, Reached ⟨fun _ _ _ => 0, .dropped⟩ (fun _ _ => True) 5 7
    (([[97], [98], [97]] : List Word).flatMap spell) s ∧
      stored s.1.weights ≤ 4 * s.1.mistakes := by
  obtain ⟨s, h⟩ : ∃ s, Reached ⟨fun _ _ _ => 0, .dropped⟩ (fun _ c => c.hears = true) 5 7
      (([[97], [98], [97]] : List Word).flatMap spell) s :=
    Reached.exists_of_hears (fun _ _ _ => 0) 5 (by decide) spell_hears
  have hcalls : (([[97], [98], [97]] : List Word).flatMap spell).countP Call.regrets = 0 := by
    decide
  obtain ⟨_, _, _, _, _, hstored⟩ := memory_law ⟨fun _ _ _ => 0, .dropped⟩ 5 7 _ s h.unguarded
  rw [hcalls, Nat.add_zero] at hstored
  exact ⟨s, h.unguarded, hstored.trans (Nat.mul_le_mul_left 4 (Nat.min_le_left _ _))⟩

end WordModel.BoundedCTModel
