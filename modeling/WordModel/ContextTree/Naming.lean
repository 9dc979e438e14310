import WordModel.ContextTree.Learning

/-! Elements and their tokens. A prediction numbers the element at which its descent stops;
an older one that it then meets for the first time is entered with the token of the root. -/

namespace WordModel.ContextTree

open Checked Follow

variable {DataType ContextData : Type} [DecidableEq DataType]

structure Tokens.Faithful (tk : Tokens DataType) : Prop where
  injective : tk.Injective
  range : ∀ c n, tk.dataMap.lookup c = some n → 1 ≤ n ∧ n ≤ tk.tokenNumber - 1
  listed : ∀ c n, tk.dataMap.lookup c = some n → tk.dataList[n - 1]? = some c
  fragments : ∀ dataFrag dataFrag' tokens, tk.Name dataFrag tokens → tk.Name dataFrag' tokens →
    dataFrag = dataFrag'

def stopsAt (t : ContextTree DataType ContextData) (dataFrag : List DataType) : Option DataType :=
  (dataFrag.reverse.drop ((t.visited dataFrag).length - 1)).head?

/-- The only element that is seen for the first time is the one the descent stops at. -/
def Familiar (t : ContextTree DataType ContextData) : Request DataType → Prop
  | .predict dataFrag => ∀ c ∈ dataFrag, c ∈ t.tokens.dataMap ∨ t.stopsAt dataFrag = some c
  | .regret _ _ => True
  | .reinforce _ _ => True

instance (t : ContextTree DataType ContextData) : DecidablePred t.Familiar
  | .predict dataFrag => inferInstanceAs
      (Decidable (∀ c ∈ dataFrag, c ∈ t.tokens.dataMap ∨ t.stopsAt dataFrag = some c))
  | .regret _ _ => inferInstanceAs (Decidable True)
  | .reinforce _ _ => inferInstanceAs (Decidable True)

def tokensAfter (tk : Tokens DataType) : List DataType → Tokens DataType
  | [] => tk
  | c :: rest => (missedTokens tk c rest).2

lemma recordAdditions_tokens (tk : Tokens DataType) (con : Context ContextData) (j : ℕ)
    (cs : List DataType) : (recordAdditions tk con j cs).1 = (tk.indexAll cs).2 := by
  induction cs generalizing tk con j with
  | nil => rfl
  | cons c cs ih => exact ih _ _ _

lemma predictLoop_tokens (g : Graph) (tk : Tokens DataType) (con : Context ContextData)
    (v i : ℕ) (cs : List DataType) : (predictLoop g tk con v i cs).1 =
      tokensAfter tk (cs.drop ((walk (nextVertex g tk) v cs).length - 1)) := by
  induction cs generalizing con v i with
  | nil => rfl
  | cons c cs ih =>
    cases hc : tk.dataMap.lookup c with
    | none =>
      simp only [predictLoop, walk, nextVertex, hc, Option.bind_none, List.length_singleton,
        Nat.sub_self, List.drop_zero, recordAdditions_tokens, tokensAfter, missedTokens]
    | some token =>
      cases hd : descend g v token with
      | none =>
        simp only [predictLoop, walk, nextVertex, hc, Option.bind_some, hd, List.length_singleton,
          Nat.sub_self, List.drop_zero, recordAdditions_tokens, tokensAfter, missedTokens]
      | some u =>
        have hpos := walk_length_pos (nextVertex g tk) u cs
        have hh := ih (con.storeId i (g.node v).id) u (i + 1)
        simp only [predictLoop, hc, hd]
        rw [hh]
        simp only [walk, nextVertex, hc, Option.bind_some, hd, List.length_cons,
          Nat.add_sub_cancel]
        change _ = tokensAfter tk ((c :: cs).drop (walk (nextVertex g tk) u cs).length)
        rw [List.drop_cons hpos]

lemma predict_tokens {t t' : ContextTree DataType ContextData} {dataFrag : List DataType}
    {contextId : ℕ} {calls : List Callback}
    (h : t.predict dataFrag = .ok (contextId, t', calls)) : t'.tokens =
      tokensAfter t.tokens (dataFrag.reverse.drop ((t.visited dataFrag).length - 1)) := by
  rw [predict] at h
  obtain ⟨⟨id, con, t₁⟩, hact, h⟩ := bind_eq_ok.mp h
  obtain ⟨htree, htokens, hroot⟩ := activateContext_same hact
  have he := congrArg (fun r => r.2.1.tokens) (Except.ok.inj h)
  dsimp only at he
  rw [← he, predictLoop_tokens, htree, htokens, hroot]
  rfl

omit [DecidableEq DataType] in
lemma settle_tokens {tp : Template} {push : ℕ → ℕ → Callback} {isRegret : Bool}
    {t t' : ContextTree DataType ContextData} {contextId : ℕ} {depth : ℤ} {calls : List Callback}
    (h : settle tp push isRegret t contextId depth = .ok (t', calls)) : t'.tokens = t.tokens := by
  rw [settle] at h
  split at h
  · obtain ⟨con, _, h⟩ := bind_eq_ok.mp h
    obtain ⟨⟨pushes, index⟩, _, h⟩ := bind_eq_ok.mp h
    obtain ⟨⟨g, n, leaf, additions⟩, _, h⟩ := bind_eq_ok.mp h
    exact (congrArg (fun r => r.1.tokens) (Except.ok.inj h)).symm
  · exact (congrArg (fun r => r.1.tokens) (Except.ok.inj h)).symm

lemma serve_tokens {tp : Template} {M : Type} {visitor : Visitor M ContextData}
    {s s' : ContextTree DataType ContextData × M} {r : Request DataType}
    (h : serve tp visitor s r = .ok s') : s'.1.tokens = match r with
      | .predict dataFrag =>
        tokensAfter s.1.tokens (dataFrag.reverse.drop ((s.1.visited dataFrag).length - 1))
      | _ => s.1.tokens := by
  have delivered {contextId : ℕ} {t : ContextTree DataType ContextData} {calls : List Callback}
      (hd : deliver visitor contextId (t, s.2) calls = .ok s') : s'.1.tokens = t.tokens := by
    have hsame := deliver_same visitor hd
    generalize s'.1 = u at hsame
    cases hsame <;> rfl
  cases r with
  | predict dataFrag =>
    obtain ⟨⟨contextId, t, calls⟩, hp, hd⟩ := bind_eq_ok.mp h
    exact (delivered hd).trans (predict_tokens hp)
  | regret contextId depth =>
    obtain ⟨⟨t, calls⟩, hp, hd⟩ := bind_eq_ok.mp h
    exact (delivered hd).trans (settle_tokens hp)
  | reinforce contextId depth =>
    obtain ⟨⟨t, calls⟩, hp, hd⟩ := bind_eq_ok.mp h
    exact (delivered hd).trans (settle_tokens hp)

lemma Tokens.index_keeps {tk : Tokens DataType} {d : DataType} {n : ℕ}
    (h : tk.dataMap.lookup d = some n) (c : DataType) :
    (tk.index c).2.dataMap.lookup d = some n := by
  rw [Tokens.index]
  split
  · exact h
  · rename_i hc
    have hne : d ≠ c := by
      rintro rfl
      rw [h] at hc
      cases hc
    dsimp only
    rwa [AList.lookup_insert_ne hne]

lemma Tokens.indexAll_keeps {tk : Tokens DataType} {d : DataType} {n : ℕ}
    (h : tk.dataMap.lookup d = some n) (cs : List DataType) :
    (tk.indexAll cs).2.dataMap.lookup d = some n := by
  induction cs generalizing tk with
  | nil => exact h
  | cons c cs ih => exact ih (Tokens.index_keeps h c)

lemma Tokens.indexAll_unknown {tk : Tokens DataType} {d : DataType} {cs : List DataType}
    (hd : d ∈ cs) (hn : d ∉ tk.dataMap) : (tk.indexAll cs).2.dataMap.lookup d = some 0 := by
  induction cs generalizing tk with
  | nil => simp at hd
  | cons c cs ih =>
    by_cases hc : d = c
    · subst hc
      change ((tk.index d).2.indexAll cs).2.dataMap.lookup d = some 0
      apply Tokens.indexAll_keeps
      rw [Tokens.index, AList.lookup_eq_none.mpr hn]
      exact AList.lookup_insert _
    · refine ih (List.mem_of_ne_of_mem hc hd) (fun hmem => ?_)
      exact (Tokens.mem_index hmem).elim hn hc

lemma tokensAfter_keeps {tk : Tokens DataType} {d : DataType} {n : ℕ}
    (h : tk.dataMap.lookup d = some n) (cs : List DataType) :
    (tokensAfter tk cs).dataMap.lookup d = some n := by
  cases cs with
  | nil => exact h
  | cons c rest =>
    rw [tokensAfter, missedTokens]
    split
    · rename_i hc
      apply Tokens.indexAll_keeps
      rw [Tokens.number_lookup, if_neg]
      · exact h
      · rintro rfl
        rw [h] at hc
        cases hc
    · exact Tokens.indexAll_keeps h _

lemma tokensAfter_unknown {tk : Tokens DataType} {c d : DataType} {rest : List DataType}
    (hd : d ∈ rest) (hne : d ≠ c) (hn : d ∉ tk.dataMap) :
    (tokensAfter tk (c :: rest)).dataMap.lookup d = some 0 := by
  rw [tokensAfter, missedTokens]
  split
  · apply Tokens.indexAll_unknown (List.mem_cons_of_mem _ hd)
    exact fun hmem => ((AList.mem_insert _).mp hmem).elim hne hn
  · exact Tokens.indexAll_unknown (List.mem_cons_of_mem _ hd) hn

lemma serve_keeps {tp : Template} {M : Type} {visitor : Visitor M ContextData}
    {s s' : ContextTree DataType ContextData × M} {r : Request DataType}
    (h : serve tp visitor s r = .ok s') {d : DataType} {n : ℕ}
    (hd : s.1.tokens.dataMap.lookup d = some n) : s'.1.tokens.dataMap.lookup d = some n := by
  rw [serve_tokens h]
  cases r with
  | predict dataFrag => exact tokensAfter_keeps hd _
  | regret => exact hd
  | reinforce => exact hd

structure Tokens.Kept (tk : Tokens DataType) : Prop where
  length : tk.tokenNumber = tk.dataList.length + 1
  listed : ∀ c n, tk.dataMap.lookup c = some n → 1 ≤ n ∧ tk.dataList[n - 1]? = some c

lemma Tokens.Kept.number {tk : Tokens DataType} (h : tk.Kept) (c : DataType) :
    (tk.number c).Kept where
  length := by
    change tk.tokenNumber + 1 = (tk.dataList ++ [c]).length + 1
    rw [h.length, List.length_append, List.length_singleton]
  listed d n hd := by
    rw [Tokens.number_lookup] at hd
    change 1 ≤ n ∧ (tk.dataList ++ [c])[n - 1]? = some d
    split at hd
    · rename_i he
      obtain rfl := Option.some.inj hd
      rw [h.length, he]
      simp
    · obtain ⟨hpos, hget⟩ := h.listed d n hd
      have hlt := (List.getElem?_eq_some_iff.mp hget).1
      exact ⟨hpos, by rwa [List.getElem?_append_left hlt]⟩

lemma Tokens.Kept.injective {tk : Tokens DataType} (h : tk.Kept) : tk.Injective := by
  intro c d n hc hd
  have hc' := (h.listed c n hc).2
  rwa [(h.listed d n hd).2, Option.some.injEq, eq_comm] at hc'

lemma Tokens.Kept.faithful {tk : Tokens DataType} (h : tk.Kept) : tk.Faithful where
  injective := h.injective
  range c n hc := by
    obtain ⟨hpos, hget⟩ := h.listed c n hc
    have hlt := (List.getElem?_eq_some_iff.mp hget).1
    have hlen := h.length
    omega
  listed c n hc := (h.listed c n hc).2
  fragments dataFrag dataFrag' tokens hf hf' := by
    induction hf generalizing dataFrag' with
    | nil =>
      cases hf'
      rfl
    | cons hc _ ih =>
      cases hf' with
      | cons hd hf' => rw [h.injective _ _ _ hc hd, ih _ hf']

lemma Tokens.Kept.tokensAfter {tk : Tokens DataType} (h : tk.Kept) {cs : List DataType}
    (hc : ∀ d ∈ cs, d ∈ tk.dataMap ∨ cs.head? = some d) : (tokensAfter tk cs).Kept := by
  cases cs with
  | nil => exact h
  | cons c rest =>
    have hrest : ∀ d ∈ rest, d = c ∨ d ∈ tk.dataMap := fun d hd =>
      (hc d (List.mem_cons_of_mem _ hd)).symm.imp (fun he => (Option.some.inj he).symm) id
    rw [ContextTree.tokensAfter, (missedTokens_known c hrest).2]
    split
    · exact h
    · exact h.number c

lemma mem_dataMap_of_visited {t : ContextTree DataType ContextData} {dataFrag : List DataType}
    {c : DataType} (h : c ∈ dataFrag.reverse.take ((t.visited dataFrag).length - 1)) :
    c ∈ t.tokens.dataMap := by
  rw [visited] at h
  generalize t.root = v at h
  generalize dataFrag.reverse = cs at h
  induction cs generalizing v with
  | nil => simp at h
  | cons d cs ih =>
    cases hn : nextVertex t.tree t.tokens v d with
    | none => simp [walk, hn] at h
    | some u =>
      obtain ⟨n, hlookup, _⟩ := Option.bind_eq_some_iff.mp hn
      have hpos := walk_length_pos (nextVertex t.tree t.tokens) u cs
      simp only [walk, hn, List.length_cons, Nat.add_sub_cancel] at h
      rw [List.take_cons hpos, List.mem_cons] at h
      rcases h with rfl | h
      · exact AList.lookup_isSome.mp (by rw [hlookup]; rfl)
      · exact ih u h

lemma serve_kept_iff {tp : Template} {M : Type} {visitor : Visitor M ContextData}
    {s s' : ContextTree DataType ContextData × M} {r : Request DataType}
    (h : serve tp visitor s r = .ok s') (hk : s.1.tokens.Kept) :
    (s.1.Familiar r → s'.1.tokens.Kept) ∧
      (¬ s.1.Familiar r → ∃ d, s'.1.tokens.dataMap.lookup d = some 0) := by
  rw [serve_tokens h]
  cases r with
  | regret => exact ⟨fun _ => hk, fun hn => (hn trivial).elim⟩
  | reinforce => exact ⟨fun _ => hk, fun hn => (hn trivial).elim⟩
  | predict dataFrag =>
    dsimp only
    have hsplit := List.take_append_drop ((s.1.visited dataFrag).length - 1) dataFrag.reverse
    constructor
    · intro hf
      apply hk.tokensAfter
      exact fun d hd => hf d (List.mem_reverse.mp (List.mem_of_mem_drop hd))
    · intro hf
      simp only [Familiar, not_forall, not_or] at hf
      obtain ⟨d, hd, hmem, hstop⟩ := hf
      have hdrop : d ∈ dataFrag.reverse.drop ((s.1.visited dataFrag).length - 1) := by
        have hd' := List.mem_reverse.mpr hd
        rw [← hsplit, List.mem_append] at hd'
        exact hd'.resolve_left (fun ht => hmem (mem_dataMap_of_visited ht))
      rw [stopsAt] at hstop
      generalize dataFrag.reverse.drop ((s.1.visited dataFrag).length - 1) = cs at hdrop hstop ⊢
      cases cs with
      | nil => simp at hdrop
      | cons c rest =>
        have hne : d ≠ c := fun he => hstop (by rw [he]; rfl)
        exact ⟨d, tokensAfter_unknown (List.mem_of_ne_of_mem hne hdrop) hne hmem⟩

lemma run_familiar {tp : Template} {M : Type} {visitor : Visitor M ContextData}
    {s s' : ContextTree DataType ContextData × M} {requests : List (Request DataType)}
    (h : Runs.Run (serve tp visitor) (fun _ _ => True) s requests s') (hk : s.1.tokens.Kept)
    (hn : ∀ d, s'.1.tokens.dataMap.lookup d ≠ some 0) :
    Runs.Run (serve tp visitor) (fun s r => s.1.Familiar r) s requests s' := by
  induction h with
  | nil => exact .nil
  | @cons s s₁ s' r rs _ he hrun ih =>
    obtain ⟨hkept, hzero⟩ := serve_kept_iff he hk
    have hf : s.1.Familiar r := by
      by_contra hnot
      obtain ⟨d, hd⟩ := hzero hnot
      refine hn d (Runs.Run.invariant (P := fun s : ContextTree DataType ContextData × M =>
        s.1.tokens.dataMap.lookup d = some 0) hrun ?_ hd)
      exact fun _ _ _ hs _ he => serve_keeps he hs
    exact .cons hf he (ih (hkept hf) hn)

theorem tokens_law (tp : Template) {M : Type} (visitor : Visitor M ContextData)
    (data : ContextData) (maxContexts : ℕ) (m : M) (requests : List (Request DataType))
    (s : ContextTree DataType ContextData × M)
    (h : Reached tp visitor (fun _ _ => True) data maxContexts m requests s) :
    s.1.tokens.Faithful ↔
      Reached tp visitor (fun s r => s.1.Familiar r) data maxContexts m requests s := by
  have hfresh : (fresh data maxContexts : ContextTree DataType ContextData).tokens.Kept :=
    ⟨rfl, by simp [fresh]⟩
  constructor
  · intro hf
    refine run_familiar h hfresh (fun d hd => ?_)
    have := (hf.range d 0 hd).1
    omega
  · intro hr
    refine (Runs.Run.invariant (P := fun s : ContextTree DataType ContextData × M =>
      s.1.tokens.Kept) hr ?_ hfresh).faithful
    exact fun _ _ _ hs hf he => (serve_kept_iff he hs).1 hf

theorem tokens_law_two : ∃ s : ContextTree ℕ Unit × Unit,
    Reached (.ofDefault fun _ _ _ => 0) .silent (fun _ _ => True) () 2 ()
      [.predict [7], .predict [7, 8], .reinforce 1 5, .predict [8, 7, 9]] s ∧
    s.1.tokens.Faithful := by
  have h : Reached (.ofDefault fun _ _ _ => 0) .silent
      (fun s r => s.1.Familiar r) () 2 ()
      [.predict [7], .predict [7, 8], .reinforce 1 5, .predict [8, 7, 9]]
      (_ : ContextTree ℕ Unit × Unit) :=
    .cons (by decide) rfl (.cons (by decide) rfl (.cons (by decide) rfl (.cons (by decide) rfl .nil)))
  exact ⟨_, h.unguarded, (tokens_law _ _ () 2 () _ _ h.unguarded).mpr h⟩

theorem tokens_law_fails : ¬ ∀ (requests : List (Request ℕ)) (s : ContextTree ℕ Unit × Unit),
    Reached (.ofDefault fun _ _ _ => 0) .silent (fun _ _ => True) () 20 () requests s →
    s.1.tokens.Faithful := by
  intro h
  have hrun : Reached (.ofDefault fun _ _ _ => 0) .silent (fun _ _ => True) () 20 ()
      [.predict [7, 8, 9]] (_ : ContextTree ℕ Unit × Unit) := .cons trivial rfl .nil
  have hsame := (h _ _ hrun).injective 7 8 0 rfl rfl
  omega

end WordModel.ContextTree
