import WordModel.ContextTree.Requests
import Mathlib.Data.List.Dedup

/-! How long a prediction can be settled: its id is recycled when the pool runs empty, and
the oldest half of the unsettled predictions goes at a time. -/

namespace WordModel.ContextTree

open Checked

variable {DataType ContextData : Type}

lemma flushLoop_eq {n : ℕ} (active inactive : List ℕ)
    (hn : n ≤ active.length + inactive.length) :
    flushLoop n active inactive = .ok (active.drop ((n + 1) / 2 - inactive.length),
      inactive ++ active.take ((n + 1) / 2 - inactive.length)) := by
  induction active generalizing inactive with
  | nil =>
    rw [List.length_nil, Nat.zero_add] at hn
    rw [flushLoop, if_neg (by omega)]
    simp
  | cons a active ih =>
    rw [List.length_cons] at hn
    rw [flushLoop]
    by_cases hlt : 2 * inactive.length < n
    · obtain ⟨k, hk⟩ : ∃ k, (n + 1) / 2 - inactive.length = k + 1 :=
        ⟨(n + 1) / 2 - inactive.length - 1, by omega⟩
      have hlen : (inactive ++ [a]).length = inactive.length + 1 := by simp
      have hk' : (n + 1) / 2 - (inactive ++ [a]).length = k := by omega
      rw [if_pos hlt, ih (inactive ++ [a]) (by omega), hk', hk]
      simp
    · rw [if_neg hlt, show (n + 1) / 2 - inactive.length = 0 by omega]
      simp

def recycles (t : ContextTree DataType ContextData) : ℕ :=
  if t.inactiveIds = [] then (t.maxContexts + 1) / 2 else 0

lemma activateContext_activeIds {t t' : ContextTree DataType ContextData} (h : t.Pooled)
    {contextId : ℕ} {con : Context ContextData}
    (he : t.activateContext = .ok (contextId, con, t')) :
    t'.activeIds = t.activeIds.drop t.recycles ++ [contextId] := by
  rw [activateContext_eq] at he
  obtain ⟨t₁, ht₁, he⟩ := bind_eq_ok.mp he
  rw [(takeContext_same he).1, recycles]
  by_cases hi : t.inactiveIds = []
  · have hlen : t.activeIds.length = t.maxContexts := by
      simpa [hi] using List.Perm.length_eq h
    rw [if_pos hi, flushIds, flushLoop_eq _ _ (by omega), hi] at ht₁
    obtain rfl := Except.ok.inj ht₁
    rw [if_pos hi]
    rfl
  · rw [if_neg hi] at ht₁ ⊢
    obtain rfl := Except.ok.inj ht₁
    rfl

lemma predict_activeIds [DecidableEq DataType] {t t' : ContextTree DataType ContextData}
    (h : t.Pooled) {dataFrag : List DataType} {contextId : ℕ} {calls : List Callback}
    (he : t.predict dataFrag = .ok (contextId, t', calls)) :
    t'.activeIds = t.activeIds.drop t.recycles ++ [contextId] := by
  rw [predict] at he
  obtain ⟨⟨id, con, t₁⟩, hact, he⟩ := bind_eq_ok.mp he
  have hid := congrArg (fun r => r.1) (Except.ok.inj he)
  have hactive := congrArg (fun r => r.2.1.activeIds) (Except.ok.inj he)
  dsimp only at hid hactive
  rw [← hactive, ← hid]
  exact activateContext_activeIds h hact

lemma predict_contextId [DecidableEq DataType] {t t' : ContextTree DataType ContextData}
    {id : ℕ} {ids : List ℕ} (h : t.inactiveIds = id :: ids) {dataFrag : List DataType}
    {contextId : ℕ} {calls : List Callback}
    (he : t.predict dataFrag = .ok (contextId, t', calls)) : contextId = id := by
  rw [predict] at he
  obtain ⟨⟨id', con, t₁⟩, hact, he⟩ := bind_eq_ok.mp he
  have hid : id' = contextId := congrArg (fun r => r.1) (Except.ok.inj he)
  rw [activateContext_eq, if_neg (by simp [h]), pure_eq_ok, ok_bind, takeContext, h, popFront,
    ok_bind] at hact
  obtain ⟨con₁, -, hact⟩ := bind_eq_ok.mp hact
  have hfirst : id = id' := congrArg (fun r => r.1) (Except.ok.inj hact)
  rw [← hid, ← hfirst]

def SameRecord (contextId : ℕ) (t t' : ContextTree DataType ContextData) : Prop :=
  ∃ con con', t.contexts[contextId]? = some con ∧ t'.contexts[contextId]? = some con' ∧
    con'.path = con.path ∧ con'.leaf = con.leaf ∧ con'.additionSize = con.additionSize

lemma SameRecord.trans {contextId : ℕ} {t t' t'' : ContextTree DataType ContextData}
    (h : SameRecord contextId t t') (h' : SameRecord contextId t' t'') :
    SameRecord contextId t t'' := by
  obtain ⟨con, con', hc, hc', hp, hl, hs⟩ := h
  obtain ⟨con₁, con'', hc₁, hc'', hp', hl', hs'⟩ := h'
  rw [hc', Option.some.injEq] at hc₁
  subst hc₁
  exact ⟨con, con'', hc, hc'', hp'.trans hp, hl'.trans hl, hs'.trans hs⟩

lemma SameRecord.of_getElem? {contextId : ℕ} {t t' : ContextTree DataType ContextData}
    (hlt : contextId < t.contexts.length)
    (h : t'.contexts[contextId]? = t.contexts[contextId]?) : SameRecord contextId t t' := by
  have hget := List.getElem?_eq_getElem hlt
  exact ⟨_, _, hget, h.trans hget, rfl, rfl, rfl⟩

lemma SameButData.sameRecord {t t' : ContextTree DataType ContextData} (h : SameButData t t')
    {contextId : ℕ} (hlt : contextId < t.contexts.length) : SameRecord contextId t t' := by
  cases h with
  | refl => exact .of_getElem? hlt rfl
  | setData i data =>
    have hget := List.getElem?_eq_getElem hlt
    refine ⟨_, _, hget, by rw [setData_getElem?, hget, Option.map_some], ?_⟩
    split <;> exact ⟨rfl, rfl, rfl⟩

section Serve

variable [DecidableEq DataType] (tp : Template) {M : Type} (visitor : Visitor M ContextData)

inductive Turned (t t' : ContextTree DataType ContextData) : Request DataType → List ℕ → Prop
  | predicted {dataFrag contextId} : contextId ∉ t.activeIds.drop t.recycles →
      contextId < t.maxContexts →
      t'.activeIds = t.activeIds.drop t.recycles ++ [contextId] →
      (∀ i < t.maxContexts, i ≠ contextId → SameRecord i t t') →
      Turned t t' (.predict dataFrag) [contextId]
  | settled {r contextId} : Request.settles r = some contextId →
      t'.activeIds = t.activeIds.erase contextId →
      (∀ i < t.maxContexts, i ≠ contextId → SameRecord i t t') → Turned t t' r []

def returned (s : ContextTree DataType ContextData × M) (r : Request DataType) : List ℕ :=
  match r with
  | .predict dataFrag =>
    match s.1.predict dataFrag with
    | .ok (contextId, _, _) => [contextId]
    | .error _ => []
  | _ => []

lemma Sound.turned {s s' : ContextTree DataType ContextData × M} (h : s.1.Sound)
    {r : Request DataType} (hs : serve tp visitor s r = .ok s') :
    Turned s.1 s'.1 r (returned s r) := by
  have hlen := h.contexts_length
  have settling {contextId : ℕ} (hr : Request.settles r = some contextId)
      (hreturned : returned s r = []) : Turned s.1 s'.1 r (returned s r) := by
    rw [hreturned]
    obtain ⟨t, hserved, hsame⟩ := h.served tp visitor hs
    have hdata (i : ℕ) (hi : i < t.contexts.length) : SameRecord i t s'.1 := hsame.sameRecord hi
    have hactive : s'.1.activeIds = t.activeIds := by
      generalize s'.1 = u at hsame
      cases hsame <;> rfl
    cases hserved with
    | predicted => cases hr
    | @rejected _ i hset hn =>
      obtain rfl : i = contextId := by rw [hset] at hr; exact Option.some.inj hr
      refine .settled hset (by rw [hactive, List.erase_of_not_mem hn]) ?_
      exact fun j hj _ => hdata j (by omega)
    | @settled _ i con path depth hreq ha hc hrec =>
      have hset : Request.settles r = some i := by rcases hreq with rfl | rfl <;> rfl
      refine .settled hset hactive (fun j hj hne => ?_)
      have hget : (settled tp s.1 i con path depth).contexts[j]? = s.1.contexts[j]? := by
        simp [ContextTree.settled, deactivateContext, Ne.symm hne]
      refine (SameRecord.of_getElem? (by omega) hget).trans (hdata j ?_)
      simp only [ContextTree.settled, deactivateContext, List.length_set]
      omega
  cases r with
  | regret contextId depth => exact settling rfl rfl
  | reinforce contextId depth => exact settling rfl rfl
  | predict dataFrag =>
    obtain ⟨contextId, con, t, he, hp⟩ := h.predict_spec dataFrag
    have hids := predict_activeIds h.pooled he
    obtain ⟨flushed, active, _, ha, hn⟩ := hp.kept
    have hkept : active = s.1.activeIds.drop s.1.recycles :=
      (List.append_inj' (ha.symm.trans hids) rfl).1
    simp only [serve, he, ok_bind] at hs
    have hsame := deliver_same visitor hs
    have hactive : s'.1.activeIds = t.activeIds := by
      generalize s'.1 = u at hsame
      cases hsame <;> rfl
    rw [returned, he]
    refine .predicted (hkept ▸ hn) hp.lt (hactive.trans hids) (fun i hi hne => ?_)
    have hget : t.contexts[i]? = s.1.contexts[i]? := by
      rw [hp.same]
      dsimp only
      rw [List.getElem?_set, if_neg (Ne.symm hne)]
    refine (SameRecord.of_getElem? (by omega) hget).trans (hsame.sameRecord ?_)
    rw [hp.same, List.length_set]
    omega

omit [DecidableEq DataType] in
lemma Turned.sameRecord {t t' : ContextTree DataType ContextData} {r : Request DataType}
    {ids : List ℕ} (h : Turned t t' r ids) {i : ℕ} (hi : i < t.maxContexts) (hn : i ∉ ids)
    (hs : r.settles ≠ some i) : SameRecord i t t' := by
  cases h with
  | predicted _ _ _ hsame =>
    rw [List.mem_singleton] at hn
    exact hsame i hi hn
  | settled hr _ hsame =>
    refine hsame i hi ?_
    rintro rfl
    exact hs hr

omit [DecidableEq DataType] in
lemma Turned.erased {t t' : ContextTree DataType ContextData} {r : Request DataType}
    {ids : List ℕ} (h : Turned t t' r ids) {contextId : ℕ} (hr : r.settles = some contextId) :
    t'.activeIds = t.activeIds.erase contextId := by
  cases h with
  | predicted => cases hr
  | settled hset hactive _ =>
    rw [hr, Option.some.injEq] at hset
    rwa [← hset] at hactive

end Serve

lemma sublist_dedup_concat {ids log : List ℕ} {contextId : ℕ} (h : ids.Sublist log.dedup)
    (hn : contextId ∉ ids) : (ids ++ [contextId]).Sublist (log ++ [contextId]).dedup := by
  have hlast : (log ++ [contextId]).dedup =
      log.dedup.filter (· ≠ contextId) ++ [contextId] := by
    clear h
    induction log with
    | nil => rfl
    | cons i log ih =>
      by_cases hi : i ∈ log
      · rw [List.cons_append, List.dedup_cons_of_mem (List.mem_append_left _ hi), ih,
          List.dedup_cons_of_mem hi]
      · by_cases hc : i = contextId
        · subst hc
          rw [List.cons_append, List.dedup_cons_of_mem (by simp), ih,
            List.dedup_cons_of_notMem hi, List.filter_cons_of_neg (by simp)]
        · rw [List.cons_append, List.dedup_cons_of_notMem (by simp [hi, hc]), ih,
            List.dedup_cons_of_notMem hi, List.filter_cons_of_pos (by simpa using hc)]
          rfl
  have hfilter : ids.filter (· ≠ contextId) = ids := by
    apply List.filter_eq_self.mpr
    intro i hi
    simpa using ne_of_mem_of_not_mem hi hn
  rw [hlast, ← hfilter]
  exact (h.filter _).append (List.Sublist.refl _)

lemma drop_recycles {t : ContextTree DataType ContextData} (h : t.Sound)
    {contextId : ℕ} {older newer : List ℕ} (ha : t.activeIds = older ++ contextId :: newer)
    (hn : newer.length < t.maxContexts / 2) :
    t.activeIds.drop t.recycles = older.drop t.recycles ++ contextId :: newer := by
  have hle : t.recycles ≤ older.length := by
    rw [recycles]
    split
    · rename_i hi
      have hlen : t.activeIds.length = t.maxContexts := by
        simpa [hi] using List.Perm.length_eq h.pooled
      rw [ha, List.length_append, List.length_cons] at hlen
      omega
    · exact Nat.zero_le _
  rw [ha, List.drop_append_of_le_length hle]

section Run

variable [DecidableEq DataType] (tp : Template) {M : Type} (visitor : Visitor M ContextData)

/-- Runs that settle only what they were given, with the ids that they were given. -/
abbrev Issues : (ContextTree DataType ContextData × M) × List ℕ → List (Request DataType) →
    (ContextTree DataType ContextData × M) × List ℕ → Prop :=
  Runs.Run (Runs.traced (serve tp visitor) (fun s r _ => returned s r))
    (fun s r => ∀ contextId, r.settles = some contextId → contextId ∈ s.2)

structure Aged (maxContexts : ℕ) (s : (ContextTree DataType ContextData × M) × List ℕ) :
    Prop where
  sound : s.1.1.Sound
  size : s.1.1.maxContexts = maxContexts
  aged : s.1.1.activeIds.Sublist s.2.dedup
  issued : ∀ contextId ∈ s.2, contextId < maxContexts

variable {tp visitor}

lemma Aged.step {maxContexts : ℕ} {s s' : (ContextTree DataType ContextData × M) × List ℕ}
    (h : Aged maxContexts s) {r : Request DataType}
    (he : Runs.traced (serve tp visitor) (fun s r _ => returned s r) s r = .ok s') :
    Aged maxContexts s' ∧ Turned s.1.1 s'.1.1 r (returned s.1 r) ∧
      s'.2 = s.2 ++ returned s.1 r := by
  obtain ⟨hs, hlog⟩ := Runs.traced_eq_ok.mp he
  have hturned := h.sound.turned tp visitor hs
  refine ⟨?_, hturned, hlog⟩
  obtain ⟨t, hserved, hsame⟩ := h.sound.served tp visitor hs
  have hmax := hsame.maxContexts.trans (hserved.maxContexts.trans h.size)
  generalize returned s.1 r = ids at hturned hlog
  refine ⟨hsame.sound (hserved.sound h.sound), hmax, ?_, ?_⟩
  · rw [hlog]
    cases hturned with
    | predicted hn _ hids _ =>
      rw [hids]
      exact sublist_dedup_concat ((List.drop_sublist _ _).trans h.aged) hn
    | settled _ hids _ =>
      rw [hids, List.append_nil]
      exact List.erase_sublist.trans h.aged
  · rw [hlog]
    intro contextId hmem
    rcases List.mem_append.mp hmem with hmem | hmem
    · exact h.issued contextId hmem
    · cases hturned with
      | predicted _ hlt _ _ =>
        rw [List.mem_singleton] at hmem
        rw [hmem, ← h.size]
        exact hlt
      | settled => simp at hmem

lemma Issues.aged {maxContexts : ℕ} {s s' : (ContextTree DataType ContextData × M) × List ℕ}
    {requests : List (Request DataType)} (h : Issues tp visitor s requests s')
    (hs : Aged maxContexts s) : Aged maxContexts s' :=
  Runs.Run.invariant (P := Aged maxContexts) h (fun _ _ _ hs _ he => (hs.step he).1) hs

lemma Issues.survives {maxContexts : ℕ}
    {s s' : (ContextTree DataType ContextData × M) × List ℕ} {requests : List (Request DataType)}
    (h : Issues tp visitor s requests s') (hs : Aged maxContexts s) {contextId : ℕ}
    {older newer : List ℕ} (ha : s.1.1.activeIds = older ++ contextId :: newer)
    (hn : ∀ r ∈ requests, r.settles ≠ some contextId)
    (hk : newer.length + requests.countP (fun r => r.settles = none) ≤ maxContexts / 2) :
    contextId ∈ s'.1.1.activeIds ∧ SameRecord contextId s.1.1 s'.1.1 := by
  have hlt {s : (ContextTree DataType ContextData × M) × List ℕ} (hs : Aged maxContexts s)
      (hmem : contextId ∈ s.1.1.activeIds) : contextId < s.1.1.maxContexts :=
    hs.sound.pooled.active_lt hmem
  induction h generalizing older newer with
  | @nil s =>
    have hmem : contextId ∈ s.1.1.activeIds := by simp [ha]
    refine ⟨hmem, .of_getElem? ?_ rfl⟩
    rw [hs.sound.contexts_length]
    exact hlt hs hmem
  | @cons s s₁ s' r rs _ he _ ih =>
    obtain ⟨hs₁, hturned, _⟩ := hs.step he
    have hmem : contextId ∈ s.1.1.activeIds := by simp [ha]
    have hr := hn r (by simp)
    have hrs := fun r hr => hn r (List.mem_cons_of_mem _ hr)
    rw [List.countP_cons] at hk
    generalize returned s.1 r = ids at hturned
    suffices hh : contextId ∉ ids ∧ ∃ older' newer' : List ℕ,
        s₁.1.1.activeIds = older' ++ contextId :: newer' ∧
          newer'.length + rs.countP (fun r => r.settles = none) ≤ maxContexts / 2 by
      obtain ⟨hids, older', newer', ha', hk'⟩ := hh
      obtain ⟨hactive, hsame⟩ := ih hs₁ ha' hrs hk'
      exact ⟨hactive, (hturned.sameRecord (hlt hs hmem) hids hr).trans hsame⟩
    cases hturned with
    | @predicted dataFrag newest hnew _ hids _ =>
      have hpredict : decide ((Request.predict dataFrag).settles = none) = true := rfl
      rw [if_pos hpredict] at hk
      have hmax := hs.size
      have hkeep := drop_recycles hs.sound ha (by omega)
      refine ⟨?_, older.drop s.1.1.recycles, newer ++ [newest], ?_, ?_⟩
      · rw [List.mem_singleton]
        rintro rfl
        exact hnew (by rw [hkeep]; simp)
      · rw [hids, hkeep, List.append_assoc, List.cons_append]
      · rw [List.length_append, List.length_singleton]
        omega
    | @settled _ i hset hids _ =>
      have hne : contextId ≠ i := by
        rintro rfl
        exact hr hset
      refine ⟨by simp, ?_⟩
      rw [hids, ha]
      by_cases hi : i ∈ older
      · refine ⟨older.erase i, newer, List.erase_append_left _ hi, ?_⟩
        omega
      · refine ⟨older, newer.erase i, ?_, ?_⟩
        · rw [List.erase_append_right _ hi, List.erase_cons_tail (by simpa using hne)]
        · have := newer.length_erase_le (a := i)
          omega

end Run

theorem recycling_law [DecidableEq DataType] (tp : Template) {M : Type}
    (visitor : Visitor M ContextData) (data : ContextData) (maxContexts : ℕ)
    (hM : 1 ≤ maxContexts) (m : M) (requests : List (Request DataType))
    (s : ContextTree DataType ContextData × M) (log : List ℕ)
    (h : Issues tp visitor ((fresh data maxContexts, m), []) requests (s, log)) :
    (∀ dataFrag, ∃ r, s.1.predict dataFrag = .ok r) ∧ s.1.activeIds.Sublist log.dedup ∧
    (∀ r contextId s₁ log₁, r.settles = some contextId →
      Issues tp visitor (s, log) [r] (s₁, log₁) →
      s₁.1.activeIds = s.1.activeIds.erase contextId ∧ contextId ∉ s₁.1.activeIds) ∧
    ∀ dataFrag s₁ log₁, Issues tp visitor (s, log) [.predict dataFrag] (s₁, log₁) →
      ∃ contextId recycled kept, log₁ = log ++ [contextId] ∧
        s.1.activeIds = recycled ++ kept ∧ s₁.1.activeIds = kept ++ [contextId] ∧
        (recycled ≠ [] → s.1.inactiveIds = []) ∧
        ∀ requests' s₂ log₂, Issues tp visitor (s₁, log₁) requests' (s₂, log₂) →
          (∀ r ∈ requests', r.settles ≠ some contextId) →
          requests'.countP (fun r => r.settles = none) ≤ maxContexts / 2 →
          contextId ∈ s₂.1.activeIds ∧ SameRecord contextId s₁.1 s₂.1 := by
  have hfresh : Aged maxContexts
      (((fresh data maxContexts, m), []) : (ContextTree DataType ContextData × M) × List ℕ) :=
    ⟨fresh_sound data hM, rfl, by simp [fresh], by simp⟩
  have hs := Issues.aged h hfresh
  refine ⟨fun dataFrag => ?_, hs.aged, fun r contextId s₁ log₁ hr hrun => ?_,
    fun dataFrag s₁ log₁ hrun => ?_⟩
  · obtain ⟨_, _, _, he, _⟩ := hs.sound.predict_spec dataFrag
    exact ⟨_, he⟩
  · cases hrun with
    | cons _ he hnil =>
      cases hnil
      obtain ⟨-, hturned, -⟩ := hs.step he
      have hactive := hturned.erased hr
      refine ⟨hactive, ?_⟩
      rw [hactive]
      exact hs.sound.pooled.active_nodup.not_mem_erase
  · cases hrun with
    | cons _ he hnil =>
      cases hnil
      obtain ⟨hs₁, hturned, hlog⟩ := hs.step he
      dsimp only at hlog hturned
      generalize hids : returned s (.predict dataFrag) = ids at hturned hlog
      cases hturned with
      | settled hr => cases hr
      | @predicted _ contextId _ _ hactive _ =>
        refine ⟨contextId, s.1.activeIds.take s.1.recycles, s.1.activeIds.drop s.1.recycles, hlog,
          (List.take_append_drop _ _).symm, hactive, fun hne => ?_,
          fun requests' s₂ log₂ hrun hn hk => ?_⟩
        · by_contra hi
          exact hne (by rw [recycles, if_neg hi, List.take_zero])
        · exact Issues.survives hrun hs₁ hactive hn (by simpa using hk)

theorem recycling_law_three : ∃ (s₁ : (ContextTree ℕ Unit × Unit) × List ℕ)
    (s₂ : ContextTree ℕ Unit × Unit),
    Issues (.ofDefault fun _ _ _ => 0) .silent ((fresh () 3, ()), [])
      ([.predict [7], .predict [8], .regret 0 5] ++ [.predict [9]]) s₁ ∧ s₁.2 = [0, 1, 2] ∧
    2 ∈ s₂.1.activeIds ∧ SameRecord 2 s₁.1.1 s₂.1 := by
  have h : Issues (.ofDefault fun _ _ _ => 0) .silent ((fresh () 3, ()), [])
      [.predict [7], .predict [8], .regret 0 5] (_ : (ContextTree ℕ Unit × Unit) × List ℕ) :=
    .cons (by rintro _ ⟨⟩) rfl (.cons (by rintro _ ⟨⟩) rfl (.cons (by rintro _ ⟨⟩; decide) rfl .nil))
  have h₁ := h.concat (i := .predict [9]) (by rintro _ ⟨⟩) rfl
  obtain ⟨contextId, _, _, hlog, _, _, _, hsurvives⟩ :=
    (recycling_law _ _ () 3 (by decide) () _ _ _ h).2.2.2 [9] _ _ (.cons (by rintro _ ⟨⟩) rfl .nil)
  have hids : [0, 1, 2] = [0, 1] ++ [contextId] := hlog
  obtain rfl : 2 = contextId := by simpa using hids
  have h₂ := hsurvives [.regret 1 5, .predict [7, 8]] _ _
    (.cons (by rintro _ ⟨⟩; decide) rfl (.cons (by rintro _ ⟨⟩) rfl .nil)) (by decide) (by decide)
  exact ⟨_, _, h₁, rfl, h₂⟩

end WordModel.ContextTree
