import WordModel.ContextTree.Settling

/-! What every reachable context tree satisfies: the pool is intact, the graph is ordered,
and the context of every unsettled prediction records a walk that ends at its leaf. -/

namespace WordModel.ContextTree

open Checked Follow

variable {DataType ContextData : Type}

structure Sound (t : ContextTree DataType ContextData) : Prop where
  pooled : t.Pooled
  positive : 0 < t.maxContexts
  contexts_length : t.contexts.length = t.maxContexts
  ordered : t.tree.Ordered
  root_eq : t.root = 0
  nonempty : 0 < t.tree.length
  vertexNumber : t.vertexNumber = t.tree.length
  recorded : ∀ contextId ∈ t.activeIds, ∀ con, t.contexts[contextId]? = some con →
    ∃ path, Recorded t.tree con path

lemma fresh_ordered (data : ContextData) (maxContexts : ℕ) :
    (fresh data maxContexts : ContextTree DataType ContextData).tree.Ordered where
  id_eq := by simp [fresh, Graph.node]
  older := by
    intro v u hc
    exfalso
    cases v <;> simp [fresh, IsChild, Graph.node] at hc
  filed := by
    intro v s t u hs
    exfalso
    cases v <;> simp [fresh, Graph.node] at hs

lemma fresh_sound (data : ContextData) {maxContexts : ℕ} (h : 0 < maxContexts) :
    (fresh data maxContexts : ContextTree DataType ContextData).Sound where
  pooled := by simp [Pooled, fresh]
  positive := h
  contexts_length := by simp [fresh]
  ordered := fresh_ordered data maxContexts
  root_eq := rfl
  nonempty := by simp [fresh]
  vertexNumber := rfl
  recorded := by simp [fresh]

section Predict

variable [DecidableEq DataType]

def visited (t : ContextTree DataType ContextData) (dataFrag : List DataType) : List ℕ :=
  walk (nextVertex t.tree t.tokens) t.root dataFrag.reverse

def matched (t : ContextTree DataType ContextData) (dataFrag : List DataType) : Option ℕ :=
  follow (nextVertex t.tree t.tokens) t.root dataFrag.reverse

/-- What a prediction leaves behind, in the tree and in the context it takes. -/
structure Predicted (t t' : ContextTree DataType ContextData) (dataFrag : List DataType)
    (contextId : ℕ) (con : Context ContextData) : Prop where
  lt : contextId < t.maxContexts
  kept : ∃ flushed active, t.activeIds = flushed ++ active ∧
    t'.activeIds = active ++ [contextId] ∧ contextId ∉ active
  pooled : t'.Pooled
  same : t' = { t with
    tokens := t'.tokens, activeIds := t'.activeIds, inactiveIds := t'.inactiveIds
    contexts := t.contexts.set contextId con }
  ids : t.visited dataFrag <+: con.ids
  room : dataFrag.length + 1 ≤ con.path.length
  reached : ∀ u, t.matched dataFrag = some u →
    con.leaf = t.root ∧ con.additionSize = 0 ∧ t'.tokens = t.tokens
  missed : t.matched dataFrag = none → ∃ c rest last,
    dataFrag.reverse.drop ((t.visited dataFrag).length - 1) = c :: rest ∧
      (t.visited dataFrag).getLast? = some last ∧ nextVertex t.tree t.tokens last c = none ∧
      con.leaf = last ∧ con.additionSize = rest.length + 1 ∧
      (con.additions.drop (t.visited dataFrag).length).take (rest.length + 1) =
        (missedTokens t.tokens c rest).1 ∧
      t'.tokens = (missedTokens t.tokens c rest).2

def predictCalls (t : ContextTree DataType ContextData) (dataFrag : List DataType) :
    List Callback :=
  .startPredict :: (t.visited dataFrag).mapIdx (fun k v => .pushPredict v k) ++ [.finishPredict]

namespace Sound

variable {t : ContextTree DataType ContextData} (h : t.Sound)

include h

lemma nextVertex_older {v u : ℕ} {c : DataType} (hn : nextVertex t.tree t.tokens v c = some u) :
    v < u ∧ u < t.tree.length := by
  obtain ⟨token, _, hd⟩ := Option.bind_eq_some_iff.mp hn
  exact h.ordered.older v u (h.ordered.isChild_of_descend hd).1

lemma visited_lt (dataFrag : List DataType) : ∀ v ∈ t.visited dataFrag, v < t.tree.length :=
  walk_mem _ (fun _ _ _ hn => (h.nextVertex_older hn).2) (by rw [h.root_eq]; exact h.nonempty) _

lemma visited_head (dataFrag : List DataType) : (t.visited dataFrag).head? = some 0 := by
  rw [visited, h.root_eq]
  cases dataFrag.reverse <;> simp [walk]

lemma visited_sorted (dataFrag : List DataType) : (t.visited dataFrag).Pairwise (· < ·) :=
  List.isChain_iff_pairwise.mp
    (walk_isChain (nextVertex t.tree t.tokens) (fun _ _ _ hn => (h.nextVertex_older hn).1) _ _)

lemma predict_spec (dataFrag : List DataType) :
    ∃ contextId con t', t.predict dataFrag = .ok (contextId, t', t.predictCalls dataFrag) ∧
      Predicted t t' dataFrag contextId con := by
  obtain ⟨contextId, con₀, t₁, hact, hspec⟩ :=
    activateContext_spec h.pooled h.positive h.contexts_length
  obtain ⟨⟨flushed, active, inactive, ha, ha', hi', hn⟩, hpooled, hlt, ⟨old, hold, hcon₀⟩, hsame⟩ :=
    hspec
  have htree : t₁.tree = t.tree := by rw [hsame]
  have htokens : t₁.tokens = t.tokens := by rw [hsame]
  have hroot : t₁.root = t.root := by rw [hsame]
  let con := con₀.resizePath (dataFrag.length + 1)
  have hroom : dataFrag.length + 1 ≤ con.path.length := by
    simp only [con, Context.resizePath, List.length_append, List.length_replicate]
    omega
  obtain ⟨hcalls, hids, hlen, _⟩ := predictLoop_visits t.tree t.tokens con t.root 0
    dataFrag.reverse (by rw [List.length_reverse]; omega)
  have hreached := fun u => predictLoop_reached t.tree t.tokens con t.root 0 dataFrag.reverse
    (u := u)
  have hmissed := predictLoop_missed t.tree t.tokens con t.root 0 dataFrag.reverse
    (by rw [List.length_reverse]; omega)
  cases hloop : predictLoop t.tree t.tokens con t.root 0 dataFrag.reverse with
  | mk tokens rest =>
  obtain ⟨con', calls⟩ := rest
  rw [hloop] at hcalls hids hlen hreached hmissed
  dsimp only at hcalls hids hlen
  have hmap : (t.visited dataFrag).map (fun u => (t.tree.node u).id) = t.visited dataFrag := by
    apply List.map_congr_left (g := id) (fun v hv => h.ordered.id_eq v (h.visited_lt dataFrag v hv))
      |>.trans
    simp
  refine ⟨contextId, con', { t₁ with
    tokens := tokens, contexts := t₁.contexts.set contextId con' }, ?_, hlt,
    ⟨flushed, active, ha, ha', hn⟩, hpooled, ?_, ?_, by omega, ?_, ?_⟩
  · simp only [predict, hact, ok_bind, htree, htokens, hroot]
    rw [hloop]
    simp only [pure_eq_ok, predictCalls]
    congr 5
    rw [hcalls]
    refine List.mapIdx_eq_mapIdx_iff.mpr ?_
    intro k hk
    have hv := h.visited_lt dataFrag _ (List.getElem_mem hk)
    simpa using h.ordered.id_eq _ hv
  · rw [hsame]
    simp [List.set_set]
  · rw [hids]
    change t.visited dataFrag <+: overwrite con.ids 0
      ((t.visited dataFrag).map (fun u => (t.tree.node u).id))
    rw [hmap]
    exact overwrite_prefix _
  · intro u hu
    obtain ⟨htk, hleaf, hsize⟩ := hreached u hu
    exact ⟨hleaf.trans (by simp [con, Context.resizePath, hcon₀]),
      hsize.trans (by simp [con, Context.resizePath, hcon₀]), htk⟩
  · intro hu
    obtain ⟨c, rest, last, hdrop, hlast, hnext, hleaf, hsize, hadd, htk⟩ := hmissed hu
    refine ⟨c, rest, last, hdrop, hlast, hnext, hleaf, hsize.trans ?_, ?_, htk⟩
    · simp [con, Context.resizePath, hcon₀]
    · change con'.additions = overwrite con.additions (0 + (t.visited dataFrag).length) _ at hadd
      rw [hadd, Nat.zero_add]
      have hle : (t.visited dataFrag).length ≤ con.additions.length := by
        have := walk_length_le (nextVertex t.tree t.tokens) t.root dataFrag.reverse
        simp only [List.length_reverse] at this
        rw [Context.additions_length]
        exact this.trans hroom
      have hw := overwrite_window (missedTokens t.tokens c rest).1 hle
      rwa [missedTokens_length] at hw

end Sound

/-- The walk that settling the prediction will take: all that was visited if the fragment
was missed, the root alone if the tree held it. -/
def settlePath (t : ContextTree DataType ContextData) (dataFrag : List DataType) : List ℕ :=
  if t.matched dataFrag = none then t.visited dataFrag else [t.root]

lemma Predicted.recorded {t t' : ContextTree DataType ContextData} {dataFrag : List DataType}
    {contextId : ℕ} {con : Context ContextData} (h : t.Sound)
    (hp : Predicted t t' dataFrag contextId con) :
    Recorded t.tree con (t.settlePath dataFrag) := by
  rw [settlePath]
  split
  · rename_i hm
    obtain ⟨c, rest, last, hdrop, hlast, _, hleaf, hsize, _⟩ := hp.missed hm
    refine ⟨hp.ids, h.visited_head dataFrag, h.visited_sorted dataFrag, h.visited_lt dataFrag, hleaf ▸ hlast, ?_⟩
    have hlen := congrArg List.length hdrop
    simp only [List.length_drop, List.length_reverse, List.length_cons] at hlen
    have hpos := walk_length_pos (nextVertex t.tree t.tokens) t.root dataFrag.reverse
    change 0 < (t.visited dataFrag).length at hpos
    have hroom := hp.room
    omega
  · rename_i hm
    obtain ⟨u, hu⟩ := Option.ne_none_iff_exists'.mp hm
    obtain ⟨hleaf, hsize, _⟩ := hp.reached u hu
    have hroot : [t.root] <+: t.visited dataFrag := by
      rw [visited]
      cases dataFrag.reverse <;> simp [walk]
    have hroom := hp.room
    refine ⟨hroot.trans hp.ids, by simp [h.root_eq], by simp, ?_, by simp [hleaf], by simp [hsize]; omega⟩
    simpa [h.root_eq] using h.nonempty

lemma Predicted.getElem? {t t' : ContextTree DataType ContextData} {dataFrag : List DataType}
    {contextId : ℕ} {con : Context ContextData} (h : t.Sound)
    (hp : Predicted t t' dataFrag contextId con) : t'.contexts[contextId]? = some con := by
  have hlen := h.contexts_length
  have hlt := hp.lt
  rw [hp.same]
  dsimp only
  rw [List.getElem?_set, if_pos rfl, if_pos (by omega)]

lemma Predicted.active_cases {t t' : ContextTree DataType ContextData} {dataFrag : List DataType}
    {contextId : ℕ} {con : Context ContextData} (h : t.Sound)
    (hp : Predicted t t' dataFrag contextId con) {i : ℕ} (hi : i ∈ t'.activeIds)
    {con' : Context ContextData} (hget : t'.contexts[i]? = some con') :
    (i = contextId ∧ con' = con) ∨
      (i ≠ contextId ∧ i ∈ t.activeIds ∧ t.contexts[i]? = some con') := by
  by_cases he : i = contextId
  · subst he
    rw [hp.getElem? h, Option.some.injEq] at hget
    exact Or.inl ⟨rfl, hget.symm⟩
  · obtain ⟨flushed, active, ha, ha', _⟩ := hp.kept
    rw [ha', List.mem_append, List.mem_singleton] at hi
    rw [hp.same] at hget
    dsimp only at hget
    rw [List.getElem?_set, if_neg (Ne.symm he)] at hget
    refine Or.inr ⟨he, ?_, hget⟩
    rw [ha]
    exact List.mem_append_right _ (hi.resolve_right he)

lemma Predicted.sound {t t' : ContextTree DataType ContextData} {dataFrag : List DataType}
    {contextId : ℕ} {con : Context ContextData} (h : t.Sound)
    (hp : Predicted t t' dataFrag contextId con) : t'.Sound := by
  have hrecorded := hp.recorded h
  have hlen := h.contexts_length
  have hcases : ∀ i ∈ t'.activeIds, ∀ con', t'.contexts[i]? = some con' →
      ∃ path, Recorded t.tree con' path := by
    intro i hi con' hget
    rcases hp.active_cases h hi hget with ⟨_, rfl⟩ | ⟨_, hi, hget⟩
    · exact ⟨_, hrecorded⟩
    · exact h.recorded i hi con' hget
  have hpooled := hp.pooled
  have hsame := hp.same
  rw [hsame] at hcases hpooled ⊢
  exact ⟨hpooled, h.positive, by simpa using hlen, h.ordered, h.root_eq, h.nonempty,
    h.vertexNumber, hcases⟩

end Predict

section Settle

variable (tp : Template) {t : ContextTree DataType ContextData}

lemma Sound.settle_cases (h : t.Sound) (push : ℕ → ℕ → Callback) (isRegret : Bool)
    (contextId : ℕ) (depth : ℤ) :
    (contextId ∉ t.activeIds ∧ contextId ≠ t.maxContexts ∧
      settle tp push isRegret t contextId depth = .ok (t, [])) ∨
    (contextId = t.maxContexts ∧ settle tp push isRegret t contextId depth =
      .error (.outOfRange .contexts t.maxContexts t.maxContexts)) ∨
    ∃ con path, contextId ∈ t.activeIds ∧ t.contexts[contextId]? = some con ∧
      Recorded t.tree con path ∧ settle tp push isRegret t contextId depth =
        .ok (settled tp t contextId con path depth, settleCalls push isRegret path t.vertexNumber
          (newTokens con path.length depth).length) := by
  have hlen := h.contexts_length
  by_cases hv : t.validateId contextId = true
  · rcases h.pooled.validateId_iff.mp hv with ha | rfl
    · have hlt := h.pooled.active_lt ha
      have hget := List.getElem?_eq_getElem (l := t.contexts) (i := contextId) (by omega)
      obtain ⟨path, hr⟩ := h.recorded contextId ha _ hget
      exact Or.inr (Or.inr ⟨_, path, ha, hget, hr,
        settle_eq tp push isRegret hv h.ordered hget hr depth⟩)
    · refine Or.inr (Or.inl ⟨rfl, ?_⟩)
      rw [settle, if_pos hv, fetch_of_le (by omega), error_bind, hlen]
  · have hn := fun hh => hv (h.pooled.validateId_iff.mpr hh)
    exact Or.inl ⟨fun ha => hn (Or.inl ha), fun he => hn (Or.inr he), by rw [settle, if_neg hv]⟩

lemma Sound.settle_ok (h : t.Sound) (push : ℕ → ℕ → Callback) (isRegret : Bool)
    {contextId : ℕ} (hne : contextId ≠ t.maxContexts) (depth : ℤ) :
    ∃ r, settle tp push isRegret t contextId depth = .ok r := by
  rcases h.settle_cases tp push isRegret contextId depth with
    ⟨_, _, he⟩ | ⟨heq, _⟩ | ⟨_, _, _, _, _, he⟩
  · exact ⟨_, he⟩
  · exact (hne heq).elim
  · exact ⟨_, he⟩

lemma settled_active_cases (h : t.Sound) {contextId : ℕ} {con : Context ContextData}
    {path : List ℕ} {depth : ℤ} {i : ℕ}
    (hi : i ∈ (settled tp t contextId con path depth).activeIds) {con' : Context ContextData}
    (hget : (settled tp t contextId con path depth).contexts[i]? = some con') :
    i ≠ contextId ∧ i ∈ t.activeIds ∧ t.contexts[i]? = some con' := by
  change i ∈ t.activeIds.erase contextId at hi
  obtain ⟨hne, hi⟩ := (List.Nodup.mem_erase_iff h.pooled.active_nodup).mp hi
  simp only [settled, deactivateContext, List.getElem?_set, if_neg (Ne.symm hne)] at hget
  exact ⟨hne, hi, hget⟩

lemma settled_sound (h : t.Sound) {contextId : ℕ} (ha : contextId ∈ t.activeIds)
    {con : Context ContextData} {path : List ℕ} (hr : Recorded t.tree con path) (depth : ℤ) :
    (settled tp t contextId con path depth).Sound := by
  have hl := settled_length tp hr contextId depth
  have hg := addChain_ordered tp h.ordered hr.leaf_lt (newTokens con path.length depth)
  rw [← h.vertexNumber] at hg
  refine ⟨h.pooled.deactivateContext ha, h.positive, ?_, hg, h.root_eq, ?_, ?_, ?_⟩
  · simpa [settled, deactivateContext] using h.contexts_length
  · have := h.nonempty
    omega
  · rw [hl, ← h.vertexNumber]
    rfl
  · intro i hi con' hget
    obtain ⟨_, hi, hget⟩ := settled_active_cases tp h hi hget
    obtain ⟨path', hr'⟩ := h.recorded i hi con' hget
    exact ⟨path', hr'.mono (by omega)⟩

end Settle

section Deliver

variable {M : Type} (visitor : Visitor M ContextData) {t : ContextTree DataType ContextData}

def visitAll (calls : List Callback) (s : M × ContextData) : Exec Container (M × ContextData) :=
  calls.foldlM (fun s c => visitor.visit c s) s

lemma setData_self {contextId : ℕ} {con : Context ContextData}
    (hc : t.contexts[contextId]? = some con) : t.setData contextId con.data = t := by
  have he : t.contexts.modify contextId (fun c => { c with data := con.data }) = t.contexts := by
    apply List.ext_getElem?
    intro i
    rw [List.getElem?_modify]
    by_cases hi : contextId = i
    · subst hi
      simp [hc]
    · simp [hi]
  rw [setData, he]

lemma setData_getElem? (t : ContextTree DataType ContextData) (contextId : ℕ)
    (data : ContextData) (i : ℕ) :
    (t.setData contextId data).contexts[i]? =
      (t.contexts[i]?).map (fun c => if contextId = i then { c with data := data } else c) := by
  simp [setData, List.getElem?_modify]

lemma setData_setData (t : ContextTree DataType ContextData) (contextId : ℕ)
    (data data' : ContextData) :
    (t.setData contextId data).setData contextId data' = t.setData contextId data' := by
  simp [setData, List.modify_modify_eq, Function.comp_def]

lemma deliver_eq {contextId : ℕ} {con : Context ContextData}
    (hc : t.contexts[contextId]? = some con) (m : M) (calls : List Callback) :
    deliver visitor contextId (t, m) calls = (do
      let (m', data) ← visitAll visitor calls (m, con.data)
      return (t.setData contextId data, m')) := by
  induction calls generalizing t m con with
  | nil => simp [deliver, visitAll, setData_self hc]
  | cons c calls ih =>
    simp only [deliver, visitAll, List.foldlM_cons, callback, fetch_of_getElem? hc, ok_bind]
    cases hv : visitor.visit c (m, con.data) with
    | error e => rfl
    | ok r =>
      obtain ⟨m', data⟩ := r
      simp only [ok_bind, pure_eq_ok]
      have hc' : (t.setData contextId data).contexts[contextId]? =
          some { con with data := data } := by
        simp [setData_getElem?, hc]
      have hh := ih hc' m'
      simp only [deliver, visitAll, pure_eq_ok, setData_setData] at hh
      exact hh

lemma Recorded.of_data {g : Graph} {con : Context ContextData} {path : List ℕ}
    (data : ContextData) (h : Recorded g con path) :
    Recorded g { con with data := data } path :=
  ⟨h.ids, h.rooted, h.sorted, h.valid, h.leaf, h.room⟩

lemma Sound.setData (h : t.Sound) (contextId : ℕ) (data : ContextData) :
    (t.setData contextId data).Sound where
  pooled := h.pooled
  positive := h.positive
  contexts_length := by simpa [ContextTree.setData] using h.contexts_length
  ordered := h.ordered
  root_eq := h.root_eq
  nonempty := h.nonempty
  vertexNumber := h.vertexNumber
  recorded i hi con' hget := by
    rw [setData_getElem?, Option.map_eq_some_iff] at hget
    obtain ⟨con, hcon, rfl⟩ := hget
    obtain ⟨path, hr⟩ := h.recorded i hi con hcon
    refine ⟨path, ?_⟩
    split
    · exact hr.of_data data
    · exact hr

inductive SameButData (t : ContextTree DataType ContextData) :
    ContextTree DataType ContextData → Prop
  | refl : SameButData t t
  | setData (contextId : ℕ) (data : ContextData) : SameButData t (t.setData contextId data)

lemma SameButData.sound {t' : ContextTree DataType ContextData} (h : SameButData t t')
    (ht : t.Sound) : t'.Sound := by
  cases h with
  | refl => exact ht
  | setData contextId data => exact ht.setData contextId data

lemma SameButData.maxContexts {t' : ContextTree DataType ContextData} (h : SameButData t t') :
    t'.maxContexts = t.maxContexts := by
  cases h <;> rfl

lemma deliver_same {contextId : ℕ} {m : M} {calls : List Callback}
    {s : ContextTree DataType ContextData × M}
    (hs : deliver visitor contextId (t, m) calls = .ok s) : SameButData t s.1 := by
  cases hc : t.contexts[contextId]? with
  | some con =>
    rw [deliver_eq visitor hc] at hs
    obtain ⟨⟨m', data⟩, _, he⟩ := bind_eq_ok.mp hs
    obtain rfl := Except.ok.inj he
    exact .setData contextId data
  | none =>
    cases calls with
    | nil =>
      obtain rfl : (t, m) = s := Except.ok.inj hs
      exact .refl
    | cons c calls => simp [deliver, callback, fetch, hc] at hs

end Deliver

section Serve

variable [DecidableEq DataType] (tp : Template) {M : Type}
  (visitor : Visitor M ContextData)

def Request.settles : Request DataType → Option ℕ
  | .predict _ => none
  | .regret contextId _ => some contextId
  | .reinforce contextId _ => some contextId

def Request.settlement : Request DataType → Option (ℕ × ℤ)
  | .predict _ => none
  | .regret contextId depth => some (contextId, depth)
  | .reinforce contextId depth => some (contextId, depth)

inductive Served (t : ContextTree DataType ContextData) :
    Request DataType → ContextTree DataType ContextData → Prop
  | predicted {dataFrag contextId con t'} : Predicted t t' dataFrag contextId con →
      Served t (.predict dataFrag) t'
  | rejected {r contextId} : Request.settles r = some contextId → contextId ∉ t.activeIds →
      Served t r t
  | settled {r contextId con path depth} :
      r = .regret contextId depth ∨ r = .reinforce contextId depth → contextId ∈ t.activeIds →
      t.contexts[contextId]? = some con → Recorded t.tree con path →
      Served t r (settled tp t contextId con path depth)

lemma Sound.served {s s' : ContextTree DataType ContextData × M} (h : s.1.Sound)
    {r : Request DataType} (hs : serve tp visitor s r = .ok s') :
    ∃ t, Served tp s.1 r t ∧ SameButData t s'.1 := by
  have settling (push : ℕ → ℕ → Callback) (isRegret : Bool) (contextId : ℕ) (depth : ℤ)
      (hr : r = .regret contextId depth ∨ r = .reinforce contextId depth)
      (hs : (settle tp push isRegret s.1 contextId depth >>=
        fun r => deliver visitor contextId (r.1, s.2) r.2) = .ok s') :
      ∃ t, Served tp s.1 r t ∧ SameButData t s'.1 := by
    rcases h.settle_cases tp push isRegret contextId depth with
      ⟨hn, _, he⟩ | ⟨_, he⟩ | ⟨con, path, ha, hc, hp, he⟩
    · rw [he, ok_bind] at hs
      have hset : r.settles = some contextId := by rcases hr with rfl | rfl <;> rfl
      exact ⟨_, .rejected hset hn, deliver_same visitor hs⟩
    · rw [he, error_bind] at hs
      cases hs
    · rw [he, ok_bind] at hs
      exact ⟨_, .settled hr ha hc hp, deliver_same visitor hs⟩
  cases r with
  | predict dataFrag =>
    obtain ⟨contextId, con, t', he, hp⟩ := h.predict_spec dataFrag
    simp only [serve, he, ok_bind] at hs
    exact ⟨t', .predicted hp, deliver_same visitor hs⟩
  | regret contextId depth => exact settling _ _ contextId depth (Or.inl rfl) hs
  | reinforce contextId depth => exact settling _ _ contextId depth (Or.inr rfl) hs

variable {tp} in
lemma Served.sound {t t' : ContextTree DataType ContextData} {r : Request DataType}
    (h : Served tp t r t') (ht : t.Sound) : t'.Sound := by
  cases h with
  | predicted hp => exact hp.sound ht
  | rejected => exact ht
  | settled _ ha _ hr => exact settled_sound tp ht ha hr _

variable {tp} in
lemma Served.maxContexts {t t' : ContextTree DataType ContextData} {r : Request DataType}
    (h : Served tp t r t') : t'.maxContexts = t.maxContexts := by
  cases h with
  | predicted hp => rw [hp.same]
  | rejected => rfl
  | settled => rfl

abbrev Reached (guard : ContextTree DataType ContextData × M → Request DataType → Prop)
    (data : ContextData) (maxContexts : ℕ) (m : M) (requests : List (Request DataType))
    (s : ContextTree DataType ContextData × M) : Prop :=
  Runs.Run (serve tp visitor) guard (fresh data maxContexts, m) requests s

variable {tp visitor} in
lemma Reached.sound {guard : ContextTree DataType ContextData × M → Request DataType → Prop}
    {data : ContextData} {maxContexts : ℕ} (hM : 0 < maxContexts) {m : M}
    {requests : List (Request DataType)} {s : ContextTree DataType ContextData × M}
    (h : Reached tp visitor guard data maxContexts m requests s) :
    s.1.Sound ∧ s.1.maxContexts = maxContexts := by
  refine Runs.Run.invariant (P := fun s => s.1.Sound ∧ s.1.maxContexts = maxContexts) h ?_
    ⟨fresh_sound data hM, rfl⟩
  rintro s r s' ⟨hs, hm⟩ _ he
  obtain ⟨t, ht, hd⟩ := hs.served tp visitor he
  refine ⟨hd.sound (ht.sound hs), ?_⟩
  rw [hd.maxContexts, ht.maxContexts, hm]

def Void (t : ContextTree DataType ContextData) : Prop :=
  t.maxContexts = 0 ∧ t.contexts = [] ∧ t.activeIds = [] ∧ t.inactiveIds = []

lemma Void.serve {s s' : ContextTree DataType ContextData × M} (h : Void s.1)
    {r : Request DataType} (he : serve tp visitor s r = .ok s') : s' = s := by
  obtain ⟨hmax, hcontexts, hactive, hinactive⟩ := h
  have settling (push : ℕ → ℕ → Callback) (isRegret : Bool) (contextId : ℕ) (depth : ℤ)
      (he : (settle tp push isRegret s.1 contextId depth >>=
        fun r => deliver visitor contextId (r.1, s.2) r.2) = .ok s') : s' = s := by
    rw [settle] at he
    split at he
    · simp [hcontexts, fetch] at he
    · exact (Except.ok.inj he).symm
  cases r with
  | predict dataFrag =>
    simp [ContextTree.serve, predict, activateContext, hmax, hactive, hinactive, flushIds,
      flushLoop, popFront] at he
  | regret contextId depth => exact settling _ _ _ _ he
  | reinforce contextId depth => exact settling _ _ _ _ he

omit [DecidableEq DataType] in
lemma fresh_sound_or_void (data : ContextData) (maxContexts : ℕ) :
    (fresh data maxContexts : ContextTree DataType ContextData).Sound ∨
      Void (fresh data maxContexts : ContextTree DataType ContextData) := by
  rcases Nat.eq_zero_or_pos maxContexts with rfl | hpos
  · exact Or.inr ⟨rfl, rfl, rfl, rfl⟩
  · exact Or.inl (fresh_sound data hpos)

end Serve

section PoolLaw

variable [DecidableEq DataType] (tp : Template) {M : Type}
  (visitor : Visitor M ContextData)

omit [DecidableEq DataType] in
lemma settle_rejects_iff {s : ContextTree DataType ContextData × M} (h : s.1.Sound)
    (push : ℕ → ℕ → Callback) (isRegret : Bool) {contextId : ℕ} (hn : contextId ∉ s.1.activeIds)
    (depth : ℤ) :
    (do
      let (t, calls) ← settle tp push isRegret s.1 contextId depth
      deliver visitor contextId (t, s.2) calls) = .ok s ↔ contextId ≠ s.1.maxContexts := by
  rcases h.settle_cases tp push isRegret contextId depth with
    ⟨_, hne, he⟩ | ⟨heq, he⟩ | ⟨_, _, ha, _⟩
  · rw [he, ok_bind]
    exact ⟨fun _ => hne, fun _ => rfl⟩
  · rw [he, error_bind]
    constructor
    · intro hh
      cases hh
    · intro hh
      exact (hh heq).elim
  · exact (hn ha).elim

theorem pool_law (data : ContextData) (maxContexts : ℕ) (hM : 1 ≤ maxContexts) (m : M)
    (requests : List (Request DataType)) (s : ContextTree DataType ContextData × M)
    (h : Reached tp visitor (fun _ r => r.settles ≠ some maxContexts) data maxContexts m
      requests s) :
    (s.1.activeIds ++ s.1.inactiveIds).Perm (List.range maxContexts) ∧
      (∀ contextId depth, contextId ∉ s.1.activeIds →
        (serve tp visitor s (.regret contextId depth) = .ok s ↔ contextId ≠ maxContexts) ∧
        (serve tp visitor s (.reinforce contextId depth) = .ok s ↔ contextId ≠ maxContexts)) ∧
      (∀ dataFrag, ∃ r, s.1.predict dataFrag = .ok r) ∧
      ∀ contextId depth, contextId ≠ maxContexts →
        (∃ r, s.1.regret tp contextId depth = .ok r) ∧
        ∃ r, s.1.reinforce tp contextId depth = .ok r := by
  obtain ⟨hs, rfl⟩ := h.sound hM
  refine ⟨hs.pooled, fun contextId depth hn => ?_, fun dataFrag => ?_, fun contextId depth hne => ?_⟩
  · exact ⟨settle_rejects_iff tp visitor hs .pushRegret true hn depth,
      settle_rejects_iff tp visitor hs .pushReinforce false hn depth⟩
  · obtain ⟨_, _, _, he, _⟩ := hs.predict_spec dataFrag
    exact ⟨_, he⟩
  · exact ⟨hs.settle_ok tp .pushRegret true hne depth,
      hs.settle_ok tp .pushReinforce false hne depth⟩

theorem pool_law_pair : ∃ s : ContextTree ℕ Unit × Unit,
    Reached (.ofDefault fun _ _ _ => 0) .silent (fun _ r => r.settles ≠ some 2) () 2 ()
      [.predict [7], .regret 0 5, .predict [7, 8]] s ∧
    (s.1.activeIds ++ s.1.inactiveIds).Perm (List.range 2) := by
  have h : Reached (.ofDefault fun _ _ _ => 0) .silent (fun _ r => r.settles ≠ some 2) () 2 ()
      [.predict [7], .regret 0 5, .predict [7, 8]] _ :=
    .cons (by decide) rfl (.cons (by decide) rfl (.cons (by decide) rfl .nil))
  exact ⟨_, h, (pool_law _ _ () 2 (by decide) () _ _ h).1⟩

theorem pool_law_fails : ¬ ∀ (maxContexts : ℕ) (requests : List (Request ℕ))
    (s : ContextTree ℕ Unit × Unit), 1 ≤ maxContexts →
    Reached (.ofDefault fun _ _ _ => 0) .silent (fun _ _ => True) () maxContexts () requests s →
    (s.1.activeIds ++ s.1.inactiveIds).Perm (List.range maxContexts) ∧
      ∀ contextId depth, contextId ∉ s.1.activeIds →
        serve (.ofDefault fun _ _ _ => 0) .silent s (.regret contextId depth) = .ok s ∧
        serve (.ofDefault fun _ _ _ => 0) .silent s (.reinforce contextId depth) = .ok s := by
  intro h
  have hfresh := (h 20 [] (fresh () 20, ()) (by decide) .nil).2 20 5 (by simp [fresh])
  cases hfresh.1

end PoolLaw

end WordModel.ContextTree
