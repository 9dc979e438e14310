import WordModel.ContextTree.Growth
import WordModel.ContextTree.Basic

/-! What a prediction leaves in its context: the ids of the vertices it visited, and,
past them, the tokens it would add. Older entries of the path stay where they are. -/

namespace WordModel.ContextTree

open Checked Follow

variable {DataType ContextData : Type}

namespace Context

def ids (con : Context ContextData) : List ℕ := con.path.map (·.id)

def additions (con : Context ContextData) : List ℕ := con.path.map (·.token)

lemma map_modify {f : VertexProperty → ℕ} {h : VertexProperty → VertexProperty} {n : ℕ}
    (hf : ∀ p, f (h p) = n) (path : List VertexProperty) (i : ℕ) :
    (path.modify i h).map f = (path.map f).set i n := by
  induction path generalizing i with
  | nil => simp
  | cons p path ih =>
    cases i with
    | zero => simp [hf]
    | succ i => simpa using ih i

lemma map_modify_same {f : VertexProperty → ℕ} {h : VertexProperty → VertexProperty}
    (hf : ∀ p, f (h p) = f p) (path : List VertexProperty) (i : ℕ) :
    (path.modify i h).map f = path.map f := by
  induction path generalizing i with
  | nil => simp
  | cons p path ih =>
    cases i with
    | zero => simp [hf]
    | succ i => simpa using ih i

variable (con : Context ContextData) (i n : ℕ)

@[simp] lemma storeId_ids : (con.storeId i n).ids = con.ids.set i n := by
  dsimp only [ids, storeId]
  exact map_modify (by intro p; rfl) _ _

@[simp] lemma storeId_additions : (con.storeId i n).additions = con.additions := by
  dsimp only [additions, storeId]
  exact map_modify_same (by intro p; rfl) _ _

@[simp] lemma storeToken_ids : (con.storeToken i n).ids = con.ids := by
  dsimp only [ids, storeToken]
  exact map_modify_same (by intro p; rfl) _ _

@[simp] lemma storeToken_additions : (con.storeToken i n).additions = con.additions.set i n := by
  dsimp only [additions, storeToken]
  exact map_modify (by intro p; rfl) _ _

@[simp] lemma storeId_path_length : (con.storeId i n).path.length = con.path.length := by
  simp [storeId]

@[simp] lemma storeToken_path_length : (con.storeToken i n).path.length = con.path.length := by
  simp [storeToken]

@[simp] lemma ids_length : con.ids.length = con.path.length := by simp [ids]

@[simp] lemma additions_length : con.additions.length = con.path.length := by simp [additions]

end Context

variable [DecidableEq DataType]

def Tokens.indexAll (tk : Tokens DataType) : List DataType → List ℕ × Tokens DataType
  | [] => ([], tk)
  | c :: cs => ((tk.index c).1 :: ((tk.index c).2.indexAll cs).1, ((tk.index c).2.indexAll cs).2)

@[simp] lemma Tokens.indexAll_length (tk : Tokens DataType) (cs : List DataType) :
    (tk.indexAll cs).1.length = cs.length := by
  induction cs generalizing tk with
  | nil => rfl
  | cons c cs ih => simp [indexAll, ih]

lemma recordAdditions_spec (tk : Tokens DataType) (con : Context ContextData) (j : ℕ)
    (cs : List DataType) (hj : j + cs.length ≤ con.path.length) :
    let r := recordAdditions tk con j cs
    r.1 = (tk.indexAll cs).2 ∧ r.2.ids = con.ids ∧
      r.2.additions = overwrite con.additions j (tk.indexAll cs).1 ∧
      r.2.additionSize = con.additionSize + cs.length ∧
      r.2.leaf = con.leaf ∧ r.2.data = con.data := by
  induction cs generalizing tk con j with
  | nil => simp [recordAdditions, Tokens.indexAll]
  | cons c cs ih =>
    simp only [List.length_cons] at hj
    let next := con.storeToken j (tk.index c).1
    obtain ⟨h₁, h₂, h₃, h₄, h₅, h₆⟩ := ih (tk.index c).2
      { next with additionSize := next.additionSize + 1 } (j + 1) (by simp [next]; omega)
    refine ⟨h₁, h₂.trans ?_, h₃.trans ?_, h₄.trans ?_, h₅, h₆⟩
    · exact Context.storeToken_ids con j _
    · rw [Tokens.indexAll, overwrite_cons (by simp; omega)]
      congr 1
      exact Context.storeToken_additions con j _
    · simp only [List.length_cons]
      change con.additionSize + 1 + cs.length = con.additionSize + (cs.length + 1)
      omega

def nextVertex (g : Graph) (tk : Tokens DataType) (v : ℕ) (c : DataType) : Option ℕ :=
  (tk.dataMap.lookup c).bind (descend g v)

def missedTokens (tk : Tokens DataType) (c : DataType) (cs : List DataType) :
    List ℕ × Tokens DataType :=
  match tk.dataMap.lookup c with
  | none => (tk.number c).indexAll (c :: cs)
  | some _ => tk.indexAll (c :: cs)

@[simp] lemma missedTokens_length (tk : Tokens DataType) (c : DataType) (cs : List DataType) :
    (missedTokens tk c cs).1.length = cs.length + 1 := by
  rw [missedTokens]
  split <;> simp

variable (g : Graph) (tk : Tokens DataType)

lemma predictLoop_visits (con : Context ContextData) (v i : ℕ) (cs : List DataType)
    (hi : i + cs.length < con.path.length) :
    let r := predictLoop g tk con v i cs
    let visited := walk (nextVertex g tk) v cs
    r.2.2 = visited.mapIdx (fun k u => .pushPredict (g.node u).id (i + k)) ∧
      r.2.1.ids = overwrite con.ids i (visited.map (fun u => (g.node u).id)) ∧
      r.2.1.path.length = con.path.length ∧ r.2.1.data = con.data := by
  induction cs generalizing con v i with
  | nil =>
    simp only [predictLoop, walk, List.map_cons, List.map_nil]
    refine ⟨rfl, ?_, by simp, rfl⟩
    rw [overwrite_cons (by simpa using hi)]
    simp
  | cons c cs ih =>
    simp only [List.length_cons] at hi
    have stop (tk' : Tokens DataType) (cs' : List DataType) (hcs : cs'.length = cs.length + 1) :
        let r := recordAdditions tk' { con.storeId i (g.node v).id with leaf := v } (i + 1) cs'
        r.2.ids = overwrite con.ids i [(g.node v).id] ∧
          r.2.path.length = con.path.length ∧ r.2.data = con.data := by
      obtain ⟨_, hids, _, _, _, hdata⟩ := recordAdditions_spec tk'
        { con.storeId i (g.node v).id with leaf := v } (i + 1) cs' (by simp; omega)
      have hids' := hids.trans (Context.storeId_ids con i _)
      refine ⟨?_, ?_, hdata⟩
      · rw [overwrite_cons (by simp; omega), overwrite_nil]
        exact hids'
      · simpa using congrArg List.length hids'
    cases hc : tk.dataMap.lookup c with
    | none =>
      have hs := stop (tk.number c) (c :: cs) (by simp)
      simp only [predictLoop, walk, nextVertex, hc, Option.bind_none]
      exact ⟨rfl, hs⟩
    | some token =>
      cases hd : descend g v token with
      | none =>
        have hs := stop tk (c :: cs) (by simp)
        simp only [predictLoop, walk, nextVertex, hc, Option.bind_some, hd]
        exact ⟨rfl, hs⟩
      | some u =>
        obtain ⟨hcalls, hids, hlen, hdata⟩ := ih (con.storeId i (g.node v).id) u (i + 1)
          (by simp; omega)
        simp only [predictLoop, walk, nextVertex, hc, Option.bind_some, hd]
        refine ⟨?_, ?_, by simpa using hlen, hdata⟩
        · rw [hcalls, List.mapIdx_cons]
          simp [Nat.add_comm, Nat.add_left_comm]
        · rw [hids, List.map_cons, overwrite_cons (by simp; omega)]
          simp

lemma predictLoop_reached (con : Context ContextData) (v i : ℕ) (cs : List DataType) {u : ℕ}
    (h : follow (nextVertex g tk) v cs = some u) :
    let r := predictLoop g tk con v i cs
    r.1 = tk ∧ r.2.1.leaf = con.leaf ∧ r.2.1.additionSize = con.additionSize := by
  induction cs generalizing con v i with
  | nil => exact ⟨rfl, rfl, rfl⟩
  | cons c cs ih =>
    cases hn : nextVertex g tk v c with
    | none => simp [follow, hn] at h
    | some m =>
      obtain ⟨token, hc, hd⟩ := Option.bind_eq_some_iff.mp hn
      simp only [predictLoop, hc, hd]
      exact ih (con.storeId i (g.node v).id) m (i + 1) (by simpa [follow, hn] using h)

lemma predictLoop_missed (con : Context ContextData) (v i : ℕ) (cs : List DataType)
    (hi : i + cs.length < con.path.length)
    (h : follow (nextVertex g tk) v cs = none) :
    let r := predictLoop g tk con v i cs
    let visited := walk (nextVertex g tk) v cs
    ∃ c rest last, cs.drop (visited.length - 1) = c :: rest ∧ visited.getLast? = some last ∧
      nextVertex g tk last c = none ∧ r.2.1.leaf = last ∧
      r.2.1.additionSize = con.additionSize + (rest.length + 1) ∧
      r.2.1.additions =
        overwrite con.additions (i + visited.length) (missedTokens tk c rest).1 ∧
      r.1 = (missedTokens tk c rest).2 := by
  induction cs generalizing con v i with
  | nil => simp at h
  | cons c cs ih =>
    simp only [List.length_cons] at hi
    cases hn : nextVertex g tk v c with
    | none =>
      have hlen : (con.storeId i (g.node v).id).path.length = con.path.length := by simp
      simp only [walk, hn, List.length_singleton, Nat.sub_self, List.drop_zero]
      refine ⟨c, cs, v, rfl, rfl, hn, ?_⟩
      cases hc : tk.dataMap.lookup c with
      | none =>
        obtain ⟨h₁, _, h₃, h₄, h₅, _⟩ := recordAdditions_spec (tk.number c)
          { con.storeId i (g.node v).id with leaf := v } (i + 1) (c :: cs)
          (by simp; omega)
        simp only [predictLoop, hc, missedTokens]
        refine ⟨h₅, h₄, h₃.trans ?_, h₁⟩
        congr 1
        exact Context.storeId_additions con i _
      | some token =>
        have hd : descend g v token = none := by simpa [nextVertex, hc] using hn
        obtain ⟨h₁, _, h₃, h₄, h₅, _⟩ := recordAdditions_spec tk
          { con.storeId i (g.node v).id with leaf := v } (i + 1) (c :: cs) (by simp; omega)
        simp only [predictLoop, hc, hd, missedTokens]
        refine ⟨h₅, h₄, h₃.trans ?_, h₁⟩
        congr 1
        exact Context.storeId_additions con i _
    | some m =>
      obtain ⟨token, hc, hd⟩ := Option.bind_eq_some_iff.mp hn
      obtain ⟨d, rest, last, hdrop, hlast, hnext, hleaf, hsize, hadd, htk⟩ :=
        ih (con.storeId i (g.node v).id) m (i + 1) (by simp; omega)
          (by simpa [follow, hn] using h)
      have hpos := walk_length_pos (nextVertex g tk) m cs
      simp only [predictLoop, hc, hd, walk, hn, List.length_cons, Nat.add_sub_cancel]
      refine ⟨d, rest, last, ?_, ?_, hnext, hleaf, hsize, ?_, htk⟩
      · rw [List.drop_cons hpos, hdrop]
      · rw [List.getLast?_cons, hlast]
        rfl
      · rw [hadd, Context.storeId_additions]
        congr 1
        omega

end WordModel.ContextTree
