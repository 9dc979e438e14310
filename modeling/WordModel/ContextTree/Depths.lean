import WordModel.ContextTree.Children
import WordModel.ContextTree.Levels
import WordModel.Library.Unambiguous

/-! How far a settlement reads in the path of its context, which holds more than its own
prediction has stored there, and how deep the tree can grow. -/

namespace WordModel.ContextTree

open Checked Follow

variable {DataType ContextData : Type}

inductive Store where
  | id (entry value : ℕ)
  | token (entry value : ℕ)
  deriving DecidableEq

def Store.apply (path : List VertexProperty) : Store → List VertexProperty
  | .id i n => path.modify i (fun p => { p with id := n })
  | .token i n => path.modify i (fun p => { p with token := n })

section Stores

variable [DecidableEq DataType]

def additionStores (tk : Tokens DataType) (j : ℕ) : List DataType → List Store
  | [] => []
  | c :: cs => .token j (tk.index c).1 :: additionStores (tk.index c).2 (j + 1) cs

def predictStores (g : Graph) (tk : Tokens DataType) (v i : ℕ) : List DataType → List Store
  | [] => [.id i (g.node v).id]
  | c :: cs =>
    .id i (g.node v).id ::
      match tk.dataMap.lookup c with
      | none => additionStores (tk.number c) (i + 1) (c :: cs)
      | some token =>
        match descend g v token with
        | none => additionStores tk (i + 1) (c :: cs)
        | some u => predictStores g tk u (i + 1) cs

lemma recordAdditions_path (tk : Tokens DataType) (con : Context ContextData) (j : ℕ)
    (cs : List DataType) : (recordAdditions tk con j cs).2.path =
      (additionStores tk j cs).foldl Store.apply con.path := by
  induction cs generalizing tk con j with
  | nil => rfl
  | cons c cs ih =>
    let next := con.storeToken j (tk.index c).1
    exact ih (tk.index c).2 { next with additionSize := next.additionSize + 1 } (j + 1)

variable (g : Graph) (tk : Tokens DataType)

lemma predictLoop_path (con : Context ContextData) (v i : ℕ) (cs : List DataType) :
    (predictLoop g tk con v i cs).2.1.path =
      (predictStores g tk v i cs).foldl Store.apply con.path := by
  induction cs generalizing con v i with
  | nil => rfl
  | cons c cs ih =>
    let stored := con.storeId i (g.node v).id
    rw [predictLoop, predictStores, List.foldl_cons]
    cases hc : tk.dataMap.lookup c with
    | none => exact recordAdditions_path (tk.number c) { stored with leaf := v } (i + 1) (c :: cs)
    | some token =>
      cases hd : descend g v token with
      | none =>
        simp only [hd]
        exact recordAdditions_path tk { stored with leaf := v } (i + 1) (c :: cs)
      | some u =>
        simp only [hd]
        exact ih stored u (i + 1)

lemma id_notMem_additionStores (k id j : ℕ) (cs : List DataType) :
    Store.id k id ∉ additionStores tk j cs := by
  induction cs generalizing tk j with
  | nil => exact List.not_mem_nil
  | cons c cs ih => simp [additionStores, ih]

lemma token_mem_additionStores {j n token : ℕ} {cs : List DataType}
    (h : (tk.indexAll cs).1[n]? = some token) :
    Store.token (j + n) token ∈ additionStores tk j cs := by
  induction cs generalizing tk j n with
  | nil => cases h
  | cons c cs ih =>
    rw [additionStores, List.mem_cons]
    cases n with
    | zero =>
      obtain rfl : (tk.index c).1 = token := Option.some.inj h
      exact Or.inl rfl
    | succ n =>
      have hh := ih (tk.index c).2 (j := j + 1) (n := n) h
      exact Or.inr (by rwa [Nat.add_right_comm, Nat.add_assoc] at hh)

lemma id_mem_predictStores {v i k id : ℕ} {cs : List DataType} :
    Store.id k id ∈ predictStores g tk v i cs ↔
      ∃ j u, (walk (nextVertex g tk) v cs)[j]? = some u ∧ k = i + j ∧ id = (g.node u).id := by
  have hstop (v i : ℕ) (tk' : Tokens DataType) (j : ℕ) (cs' : List DataType) :
      Store.id k id ∈ Store.id i (g.node v).id :: additionStores tk' j cs' ↔
        ∃ j u, [v][j]? = some u ∧ k = i + j ∧ id = (g.node u).id := by
    rw [List.mem_cons, or_iff_left (id_notMem_additionStores tk' k id j cs'), Store.id.injEq]
    constructor
    · rintro ⟨rfl, rfl⟩
      exact ⟨0, v, rfl, rfl, rfl⟩
    · rintro ⟨j, u, hu, rfl, rfl⟩
      cases j with
      | zero =>
        obtain rfl : v = u := Option.some.inj hu
        exact ⟨rfl, rfl⟩
      | succ j => cases hu
  induction cs generalizing v i with
  | nil => exact hstop v i tk 0 []
  | cons c cs ih =>
    cases hc : tk.dataMap.lookup c with
    | none =>
      simp only [predictStores, walk, nextVertex, hc, Option.bind_none]
      exact hstop v i _ _ _
    | some token =>
      cases hd : descend g v token with
      | none =>
        simp only [predictStores, walk, nextVertex, hc, Option.bind_some, hd]
        exact hstop v i _ _ _
      | some m =>
        simp only [predictStores, walk, nextVertex, hc, Option.bind_some, hd, List.mem_cons, ih,
          Store.id.injEq]
        constructor
        · rintro (⟨rfl, rfl⟩ | ⟨j, u, hu, rfl, rfl⟩)
          · exact ⟨0, v, rfl, rfl, rfl⟩
          · exact ⟨j + 1, u, hu, by omega, rfl⟩
        · rintro ⟨j, u, hu, rfl, rfl⟩
          cases j with
          | zero =>
            obtain rfl : v = u := Option.some.inj hu
            exact Or.inl ⟨rfl, rfl⟩
          | succ j => exact Or.inr ⟨j, u, hu, by omega, rfl⟩

lemma token_mem_predictStores {v i n token : ℕ} {cs : List DataType} {c : DataType}
    {rest : List DataType} (h : follow (nextVertex g tk) v cs = none)
    (hrest : cs.drop ((walk (nextVertex g tk) v cs).length - 1) = c :: rest)
    (hn : (missedTokens tk c rest).1[n]? = some token) :
    Store.token (i + (walk (nextVertex g tk) v cs).length + n) token ∈
      predictStores g tk v i cs := by
  induction cs generalizing v i with
  | nil => cases h
  | cons d cs ih =>
    cases hc : tk.dataMap.lookup d with
    | none =>
      simp only [walk, nextVertex, hc, Option.bind_none, List.length_singleton, Nat.sub_self,
        List.drop_zero, List.cons.injEq] at hrest
      obtain ⟨rfl, rfl⟩ := hrest
      rw [missedTokens, hc] at hn
      simp only [predictStores, walk, nextVertex, hc, Option.bind_none, List.length_singleton]
      exact List.mem_cons_of_mem _ (token_mem_additionStores _ hn)
    | some t =>
      cases hd : descend g v t with
      | none =>
        simp only [walk, nextVertex, hc, Option.bind_some, hd, List.length_singleton, Nat.sub_self,
          List.drop_zero, List.cons.injEq] at hrest
        obtain ⟨rfl, rfl⟩ := hrest
        rw [missedTokens, hc] at hn
        simp only [predictStores, walk, nextVertex, hc, Option.bind_some, hd,
          List.length_singleton]
        exact List.mem_cons_of_mem _ (token_mem_additionStores _ hn)
      | some m =>
        have hpos := walk_length_pos (nextVertex g tk) m cs
        simp only [follow, nextVertex, hc, Option.bind_some, hd] at h
        simp only [walk, nextVertex, hc, Option.bind_some, hd, List.length_cons,
          Nat.add_sub_cancel] at hrest
        have hdrop : cs.drop ((walk (nextVertex g tk) m cs).length - 1) = c :: rest := by
          change (d :: cs).drop (walk (nextVertex g tk) m cs).length = _ at hrest
          rwa [List.drop_cons hpos] at hrest
        have hh := ih (i := i + 1) h hdrop
        simp only [predictStores, walk, nextVertex, hc, Option.bind_some, hd, List.length_cons]
        refine List.mem_cons_of_mem _ ?_
        rwa [show i + 1 + (walk (nextVertex g tk) m cs).length + n =
          i + ((walk (nextVertex g tk) m cs).length + 1) + n by omega] at hh

end Stores

structure Noted (g : Graph) (con : Context ContextData) (stores : List Store) : Prop where
  written : ∃ before, con.path = stores.foldl Store.apply before
  ids : ∀ k v, .id k v ∈ stores →
    con.ids[k]? = some v ∧ ∃ ts, ts.length = k ∧ follow (descend g) 0 ts = some v
  path : ∃ path, Recorded g con path ∧ (∀ k v, path[k]? = some v → .id k v ∈ stores) ∧
    ∀ j, path.length ≤ j → j < path.length + con.additionSize →
      ∃ n, .token j n ∈ stores ∧ con.additions[j]? = some n

namespace Noted

variable {g : Graph} {con : Context ContextData} {stores : List Store} (h : Noted g con stores)

include h

lemma grown {g' : Graph} (hl : g.length ≤ g'.length)
    (hd : ∀ v t u, descend g v t = some u → descend g' v t = some u) : Noted g' con stores := by
  refine ⟨h.written, fun k v hs => ?_, ?_⟩
  · obtain ⟨hid, ts, hlen, hfollow⟩ := h.ids k v hs
    exact ⟨hid, ts, hlen, follow_mono _ hd hfollow⟩
  · obtain ⟨path, hr, hpath, htokens⟩ := h.path
    exact ⟨path, hr.mono hl, hpath, htokens⟩

lemma of_data (data : ContextData) : Noted g { con with data := data } stores := by
  obtain ⟨path, hr, hpath, htokens⟩ := h.path
  exact ⟨h.written, h.ids, path, hr.of_data data, hpath, htokens⟩

end Noted

section Predict

variable [DecidableEq DataType] {t t' : ContextTree DataType ContextData} (h : t.Sound)
  {dataFrag : List DataType} {contextId : ℕ} {con : Context ContextData}

def storesOf (t : ContextTree DataType ContextData) (dataFrag : List DataType) : List Store :=
  predictStores t.tree t.tokens t.root 0 dataFrag.reverse

include h

lemma Sound.id_mem_storesOf {k v : ℕ} :
    Store.id k v ∈ t.storesOf dataFrag ↔ (t.visited dataFrag)[k]? = some v := by
  rw [storesOf, id_mem_predictStores]
  constructor
  · rintro ⟨j, u, hu, rfl, rfl⟩
    rw [Nat.zero_add, h.ordered.id_eq u (h.visited_lt dataFrag u (List.mem_of_getElem? hu))]
    exact hu
  · intro hv
    have hid := h.ordered.id_eq v (h.visited_lt dataFrag v (List.mem_of_getElem? hv))
    exact ⟨k, v, hv, (Nat.zero_add k).symm, hid.symm⟩

lemma Sound.follow_visited {k v : ℕ} (hv : (t.visited dataFrag)[k]? = some v) :
    ∃ ts, ts.length = k ∧ follow (descend t.tree) 0 ts = some v := by
  have hlt := (List.getElem?_eq_some_iff.mp hv).1
  have hle := walk_length_le (nextVertex t.tree t.tokens) t.root dataFrag.reverse
  have hk : k ≤ dataFrag.reverse.length := by
    rw [visited] at hlt
    omega
  rw [visited, walk_getElem? _ _ _ _ hk, h.root_eq] at hv
  change follow (relabel (fun c => t.tokens.dataMap.lookup c) (descend t.tree)) 0 _ = some v at hv
  obtain ⟨ts, hts, hfollow⟩ := follow_relabel_iff.mp hv
  refine ⟨ts, ?_, hfollow⟩
  rw [← hts.length_eq, List.length_take, Nat.min_eq_left hk]

lemma Sound.predict_written {calls : List Callback}
    (he : t.predict dataFrag = .ok (contextId, t', calls)) (hc : t'.contexts[contextId]? = some con) :
    ∃ before, con.path = (t.storesOf dataFrag).foldl Store.apply before := by
  obtain ⟨id, con₀, t₁, hact, hspec⟩ := activateContext_spec h.pooled h.positive h.contexts_length
  have htree : t₁.tree = t.tree := by rw [hspec.same]
  have htokens : t₁.tokens = t.tokens := by rw [hspec.same]
  have hroot : t₁.root = t.root := by rw [hspec.same]
  rw [predict, hact, ok_bind] at he
  dsimp only at he
  obtain ⟨rfl, ht⟩ := Prod.mk.inj (Except.ok.inj he)
  obtain ⟨rfl, -⟩ := Prod.mk.inj ht
  dsimp only at hc
  rw [List.getElem?_set, if_pos rfl, htree, htokens, hroot] at hc
  split at hc
  · refine ⟨(con₀.resizePath (dataFrag.length + 1)).path, ?_⟩
    rw [← Option.some.inj hc, predictLoop_path, storesOf]
  · cases hc

lemma Predicted.noted (hp : Predicted t t' dataFrag contextId con)
    (hw : ∃ before, con.path = (t.storesOf dataFrag).foldl Store.apply before) :
    Noted t.tree con (t.storesOf dataFrag) := by
  refine ⟨hw, fun k v hs => ?_, t.settlePath dataFrag, hp.recorded h, ?_, ?_⟩
  · have hv := h.id_mem_storesOf.mp hs
    obtain ⟨rest, hrest⟩ := hp.ids
    refine ⟨?_, h.follow_visited hv⟩
    rw [← hrest, List.getElem?_append_left (List.getElem?_eq_some_iff.mp hv).1, hv]
  · intro k v hk
    rw [h.id_mem_storesOf]
    rw [settlePath] at hk
    split at hk
    · exact hk
    · cases k with
      | zero =>
        obtain rfl : t.root = v := Option.some.inj hk
        rw [← List.head?_eq_getElem?, h.visited_head, h.root_eq]
      | succ k => cases hk
  · intro j hle hlt
    by_cases hm : t.matched dataFrag = none
    · rw [settlePath, if_pos hm] at hle hlt
      obtain ⟨c, rest, last, hdrop, -, -, -, hsize, hadd, -⟩ := hp.missed hm
      obtain ⟨n, rfl⟩ := Nat.exists_eq_add_of_le hle
      have hn : n < (missedTokens t.tokens c rest).1.length := by
        rw [missedTokens_length]
        omega
      have hget := List.getElem?_eq_getElem hn
      refine ⟨(missedTokens t.tokens c rest).1[n], ?_, ?_⟩
      · have hmem := token_mem_predictStores t.tree t.tokens (i := 0) hm hdrop hget
        rw [Nat.zero_add] at hmem
        exact hmem
      · rw [← hget, ← hadd, List.getElem?_take, List.getElem?_drop, if_pos (by omega)]
    · rw [settlePath, if_neg hm] at hle hlt
      obtain ⟨u, hu⟩ := Option.ne_none_iff_exists'.mp hm
      have hsize := (hp.reached u hu).2.1
      omega

end Predict

structure Note where
  contextId : ℕ
  stores : List Store

def latest (log : List Note) (contextId : ℕ) : Option Note :=
  log.reverse.find? (fun note => note.contextId == contextId)

lemma latest_concat (log : List Note) (note : Note) (contextId : ℕ) :
    latest (log ++ [note]) contextId =
      if note.contextId = contextId then some note else latest log contextId := by
  by_cases hid : note.contextId = contextId
  · simp [latest, hid]
  · simp [latest, hid]

def AllNoted (t : ContextTree DataType ContextData) (log : List Note) : Prop :=
  ∀ contextId ∈ t.activeIds, ∀ con, t.contexts[contextId]? = some con →
    ∃ note, latest log contextId = some note ∧ Noted t.tree con note.stores

lemma AllNoted.same {t t' : ContextTree DataType ContextData} {log : List Note}
    (h : AllNoted t log) (hd : SameButData t t') : AllNoted t' log := by
  cases hd with
  | refl => exact h
  | setData id data =>
    intro contextId ha con hget
    rw [setData_getElem?, Option.map_eq_some_iff] at hget
    obtain ⟨con, hcon, rfl⟩ := hget
    obtain ⟨note, hnote, hnoted⟩ := h contextId ha con hcon
    refine ⟨note, hnote, ?_⟩
    split
    · exact hnoted.of_data data
    · exact hnoted

lemma AllNoted.settled (tp : Template) {t : ContextTree DataType ContextData} {log : List Note}
    (h : AllNoted t log) (hs : t.Sound) {contextId : ℕ} {con : Context ContextData}
    {path : List ℕ} (hr : Recorded t.tree con path) (depth : ℤ) :
    AllNoted (settled tp t contextId con path depth) log := by
  intro i hi con' hget
  obtain ⟨-, hi, hget⟩ := settled_active_cases tp hs hi hget
  obtain ⟨note, hnote, hnoted⟩ := h i hi con' hget
  refine ⟨note, hnote, hnoted.grown ?_ fun v t u hd => ?_⟩
  · rw [settled_length tp hr]
    exact Nat.le_add_right _ _
  · change descend (addChain tp _ _ _ _) v t = some u
    rw [hs.vertexNumber]
    exact descend_addChain tp hs.ordered hr.leaf_lt _ hd

lemma SameButData.leveled {t t' : ContextTree DataType ContextData} (hd : SameButData t t')
    {depth : ℤ} {most : ℕ} {level : ℕ → ℕ} (h : Leveled t depth most level) :
    Leveled t' depth most level := by
  cases hd with
  | refl => exact h
  | setData contextId data => exact h.setData contextId data

section Serve

variable [DecidableEq DataType] (tp : Template) {M : Type} (visitor : Visitor M ContextData)

def notes (s : ContextTree DataType ContextData × M) :
    Request DataType → ContextTree DataType ContextData × M → List Note
  | .predict dataFrag, _ =>
    match s.1.predict dataFrag with
    | .ok (contextId, _, _) => [{ contextId := contextId, stores := s.1.storesOf dataFrag }]
    | .error _ => []
  | _, _ => []

def Shallow (depth : ℤ) (r : Request DataType) : Prop := ∀ e ∈ r.settlement, e.2 ≤ depth

structure Followed (depth : ℤ) (t : ContextTree DataType ContextData) (log : List Note) :
    Prop where
  sound : t.Sound
  leveled : ∃ most level, Leveled t depth most level
  noted : AllNoted t log

lemma Followed.predict {depth : ℤ} {s s' : ContextTree DataType ContextData × M}
    {log : List Note} (h : Followed depth s.1 log) {dataFrag : List DataType}
    (he : serve tp visitor s (.predict dataFrag) = .ok s') :
    Followed depth s'.1 (log ++ notes s (.predict dataFrag) s') := by
  obtain ⟨contextId, con, t, hpredict, hp⟩ := h.sound.predict_spec dataFrag
  obtain ⟨most, level, hl⟩ := h.leveled
  have htree : t.tree = s.1.tree := by rw [hp.same]
  have hnotes : notes s (.predict dataFrag) s' =
      [{ contextId := contextId, stores := s.1.storesOf dataFrag }] := by
    rw [notes, hpredict]
  have hnoted : AllNoted t (log ++ notes s (.predict dataFrag) s') := by
    intro i hi con' hget
    rw [hnotes, latest_concat, htree]
    rcases hp.active_cases h.sound hi hget with ⟨rfl, rfl⟩ | ⟨hne, hi, hget⟩
    · exact ⟨_, if_pos rfl, hp.noted h.sound (h.sound.predict_written hpredict hget)⟩
    · obtain ⟨note, hnote, hnoted⟩ := h.noted i hi con' hget
      exact ⟨note, by rw [if_neg (Ne.symm hne), hnote], hnoted⟩
  rw [serve, hpredict, ok_bind] at he
  have hd := deliver_same visitor he
  exact ⟨hd.sound (hp.sound h.sound),
    ⟨_, level, hd.leveled (hl.predicted h.sound hp (Nat.le_max_left most dataFrag.length)
      (Nat.le_max_right _ _))⟩, hnoted.same hd⟩

lemma Followed.serve {depth : ℤ} {s s' : ContextTree DataType ContextData × M}
    {log : List Note} (h : Followed depth s.1 log) {r : Request DataType} (hr : Shallow depth r)
    (he : serve tp visitor s r = .ok s') : Followed depth s'.1 (log ++ notes s r s') := by
  obtain ⟨t, hs, hd⟩ := h.sound.served tp visitor he
  cases hs with
  | predicted => exact h.predict tp visitor he
  | rejected hset =>
    obtain ⟨most, level, hl⟩ := h.leveled
    have hnotes : notes s r s' = [] := by
      cases r with
      | predict => cases hset
      | regret => rfl
      | reinforce => rfl
    rw [hnotes, List.append_nil]
    exact ⟨hd.sound h.sound, ⟨most, level, hd.leveled hl⟩, h.noted.same hd⟩
  | @settled _ contextId con path d hreq ha hc hrec =>
    obtain ⟨most, level, hl⟩ := h.leveled
    have hle : d ≤ depth := by
      rcases hreq with rfl | rfl
      · exact hr (contextId, d) rfl
      · exact hr (contextId, d) rfl
    obtain ⟨level', hl'⟩ := hl.settled h.sound tp ha hc hrec hle
    have hnotes : notes s r s' = [] := by rcases hreq with rfl | rfl <;> rfl
    rw [hnotes, List.append_nil]
    exact ⟨hd.sound (settled_sound tp h.sound ha hrec d), ⟨most, level', hd.leveled hl'⟩,
      (h.noted.settled tp h.sound hrec d).same hd⟩

end Serve

def AtDepth (g : Graph) (root v k : ℕ) : Prop := ∃ ts, TokenPath g root v ts ∧ ts.length = k

lemma Leveled.atDepth {t : ContextTree DataType ContextData} {depth : ℤ} {most : ℕ}
    {level : ℕ → ℕ} (h : Leveled t depth most level) (hg : t.tree.Ordered) (hpos : 0 < depth)
    {v k : ℕ} (hv : AtDepth t.tree 0 v k) : level v = k ∧ (k : ℤ) < depth := by
  obtain ⟨ts, hts, rfl⟩ := hv
  have hlevel : level v = ts.length := by
    induction hts with
    | root => exact h.root
    | child _ hc ih => rw [h.child _ _ hc, ih, List.length_append, List.length_singleton]
  refine ⟨hlevel, ?_⟩
  cases hts with
  | root => exact hpos
  | child _ hc =>
    obtain ⟨hlt, hlen⟩ := hg.older _ _ hc
    rw [← hlevel]
    exact (h.shallow v hlen (by omega)).1

def additionReads : ℕ → ℕ → List ℕ
  | 0, _ => []
  | rounds + 1, i => i :: additionReads rounds (i + 1)

lemma mem_additionReads {rounds i j : ℕ} :
    j ∈ additionReads rounds i ↔ i ≤ j ∧ j < i + rounds := by
  induction rounds generalizing i with
  | zero => simp [additionReads]
  | succ rounds ih =>
    rw [additionReads, List.mem_cons, ih]
    omega

/-- A settlement of the context reads what its own prediction has stored, and nothing else. -/
structure Confined (g : Graph) (root : ℕ) (con : Context ContextData) (stores : List Store) :
    Prop where
  written : ∃ before, con.path = stores.foldl Store.apply before
  entries : ∀ k v, .id k v ∈ stores →
    (con.path[k]?).map (·.id) = some v ∧ AtDepth g root v k
  leaf : ∃ k, .id k con.leaf ∈ stores
  reads : ∀ push, ∃ calls index,
    settleWalk push (g.node con.leaf).id 0 con.path = .ok (calls, index) ∧
      (∀ k ≤ index, ∃ v, Store.id k v ∈ stores) ∧
      ∀ depth, ∀ j ∈ additionReads (additionRounds (index + 1) depth con.additionSize) (index + 1),
        ∃ n, Store.token j n ∈ stores ∧ (con.path[j]?).map (·.token) = some n

lemma Noted.confined {g : Graph} (hg : g.Ordered) {con : Context ContextData}
    {stores : List Store} (h : Noted g con stores) : Confined g 0 con stores := by
  obtain ⟨path, hr, hpath, htokens⟩ := h.path
  have hpos := hr.length_pos
  refine ⟨h.written, fun k v hs => ?_, ⟨path.length - 1, hpath _ _ ?_⟩, fun push => ?_⟩
  · obtain ⟨hid, ts, hlen, hfollow⟩ := h.ids k v hs
    exact ⟨by rw [← hid, Context.ids, List.getElem?_map], ts, hg.tokenPath_of_follow hfollow, hlen⟩
  · rw [← List.getLast?_eq_getElem?, hr.leaf]
  · refine ⟨_, _, hr.settleWalk_eq hg push, fun k hk => ?_, fun depth j hj => ?_⟩
    · exact ⟨_, hpath k _ (List.getElem?_eq_getElem (show k < path.length by omega))⟩
    · have hle := additionRounds_le (path.length - 1 + 1) depth con.additionSize
      obtain ⟨hfirst, hlast⟩ := mem_additionReads.mp hj
      obtain ⟨n, hn, hget⟩ := htokens j (by omega) (by omega)
      exact ⟨n, hn, by rw [← hget, Context.additions, List.getElem?_map]⟩

section Law

variable [DecidableEq DataType] (tp : Template) {M : Type} (visitor : Visitor M ContextData)

instance (depth : ℤ) (r : Request DataType) : Decidable (Shallow depth r) :=
  inferInstanceAs (Decidable (∀ e ∈ r.settlement, _))

theorem depths_law (data : ContextData) (maxContexts : ℕ) (m : M) (D : ℕ) (hD : 1 ≤ D)
    (requests : List (Request DataType)) (s : (ContextTree DataType ContextData × M) × List Note)
    (h : Runs.Run (Runs.traced (serve tp visitor) notes) (fun _ r => Shallow D r)
      ((fresh data maxContexts, m), []) requests s) :
    (∀ contextId ∈ s.1.1.activeIds, ∃ con note, s.1.1.contexts[contextId]? = some con ∧
      latest s.2 contextId = some note ∧ Confined s.1.1.tree s.1.1.root con note.stores) ∧
    ∀ v k, AtDepth s.1.1.tree s.1.1.root v k →
      k < D ∧ ∀ k', AtDepth s.1.1.tree s.1.1.root v k' → k' = k := by
  have hfresh : Leveled (fresh data maxContexts : ContextTree DataType ContextData) D 0 fun _ => 0 :=
    fresh_leveled data maxContexts D 0
  have hdepth {t : ContextTree DataType ContextData} {most : ℕ} {level : ℕ → ℕ}
      (hl : Leveled t D most level) (hg : t.tree.Ordered) (v k : ℕ) (hk : AtDepth t.tree 0 v k) :
      k < D ∧ ∀ k', AtDepth t.tree 0 v k' → k' = k := by
    obtain ⟨rfl, hlt⟩ := hl.atDepth hg (by omega) hk
    exact ⟨by omega, fun k' hk' => (hl.atDepth hg (by omega) hk').1.symm⟩
  have hpool : (fresh data maxContexts : ContextTree DataType ContextData).Sound ∨
      Void (fresh data maxContexts : ContextTree DataType ContextData) :=
    fresh_sound_or_void data maxContexts
  rcases hpool with hsound | hvoid
  · have hend : Followed D s.1.1 s.2 := by
      refine Runs.Run.traced_invariant
        (P := fun s : (ContextTree DataType ContextData × M) × List Note => Followed D s.1.1 s.2) h
        ?_ ⟨hsound, ⟨0, _, hfresh⟩, by simp [AllNoted, fresh]⟩
      exact fun s log r t hs hr he => hs.serve tp visitor hr he
    obtain ⟨hs, ⟨most, level, hl⟩, hnoted⟩ := hend
    rw [hs.root_eq]
    refine ⟨fun contextId ha => ?_, hdepth hl hs.ordered⟩
    have hlt := hs.pooled.active_lt ha
    rw [← hs.contexts_length] at hlt
    have hget := List.getElem?_eq_getElem hlt
    obtain ⟨note, hnote, hn⟩ := hnoted contextId ha _ hget
    exact ⟨_, note, hget, hnote, hn.confined hs.ordered⟩
  · have hend : s.1.1 = fresh data maxContexts := by
      refine Runs.Run.traced_invariant
        (P := fun s : (ContextTree DataType ContextData × M) × List Note =>
          s.1.1 = fresh data maxContexts) h ?_ rfl
      intro s log r t hs _ he
      dsimp only at hs ⊢
      have hvoid' : Void s.1 := hs ▸ hvoid
      rw [hvoid'.serve tp visitor he, hs]
    rw [hend]
    exact ⟨by simp [fresh], hdepth hfresh (fresh_ordered data maxContexts)⟩

theorem depths_law_two : ∃ s : (ContextTree ℕ Unit × Unit) × List Note,
    Runs.Run (Runs.traced (serve (.ofDefault fun _ _ _ => 0) .silent) notes)
      (fun _ r => Shallow 2 r) ((fresh () 2, ()), [])
      [.predict [7, 8], .regret 0 2, .predict [9, 7, 8]] s ∧
    ∀ v k, AtDepth s.1.1.tree s.1.1.root v k → k < 2 := by
  have h : Runs.Run (Runs.traced (serve (.ofDefault fun _ _ _ => 0) .silent) notes)
      (fun _ r => Shallow 2 r) (((fresh () 2, ()), []) : (ContextTree ℕ Unit × Unit) × List Note)
      [.predict [7, 8], .regret 0 2, .predict [9, 7, 8]] _ :=
    .cons (by decide) rfl (.cons (by decide) rfl (.cons (by decide) rfl .nil))
  exact ⟨_, h, fun v k hk => ((depths_law _ .silent () 2 () 2 (by decide) _ _ h).2 v k hk).1⟩

end Law

end WordModel.ContextTree
