import WordModel.Library.Checked
import WordModel.Library.Runs
import WordModel.ContextTree.Graph
import Mathlib.Algebra.Group.Nat.Defs

/-! The context tree: a prediction descends it along a fragment of context, newest
element first, and notes what it would add; settling the prediction applies it.
An operation returns the calls it makes of its visitor, and `deliver` hands them
over with the data of the context they are about. A `DataType` is one whose move
is a copy, as that of the integers the tree is used with. -/

namespace WordModel.ContextTree

open Checked

inductive Container where
  | contexts | path | activeIds | inactiveIds
  | rootWeights | weights | words | contextData
  deriving DecidableEq, Repr

inductive Callback where
  | startPredict
  | pushPredict (node depth : ℕ)
  | finishPredict
  | pushRegret (node depth : ℕ)
  | pushReinforce (node depth : ℕ)
  | addNode (node depth : ℕ) (regret : Bool)
  deriving DecidableEq, Repr

structure Context (ContextData : Type) where
  leaf : ℕ
  path : List VertexProperty
  additionSize : ℕ
  data : ContextData
  deriving DecidableEq

structure Tokens (DataType : Type) where
  tokenNumber : ℕ
  dataList : List DataType
  dataMap : AList (fun _ : DataType => ℕ)

end WordModel.ContextTree

namespace WordModel

open Checked ContextTree

structure ContextTree (DataType ContextData : Type) where
  tree : Graph
  root : ℕ
  vertexNumber : ℕ
  tokens : Tokens DataType
  maxContexts : ℕ
  contexts : List (Context ContextData)
  activeIds : List ℕ
  inactiveIds : List ℕ

namespace ContextTree

variable {DataType ContextData : Type}

def rootToken : ℕ := 0

-- `new Context[max_contexts]` leaves `leaf` and `addition_size` open; they are
-- assigned on activation, before anything reads them.
def fresh (data : ContextData) (maxContexts : ℕ) : ContextTree DataType ContextData where
  tree := [{ id := 0, token := rootToken }]
  root := 0
  vertexNumber := 1
  tokens := ⟨1, [], ∅⟩
  maxContexts := maxContexts
  contexts := List.replicate maxContexts ⟨0, [], 0, data⟩
  activeIds := []
  inactiveIds := List.range maxContexts

def validateId (t : ContextTree DataType ContextData) (contextId : ℕ) : Bool :=
  !decide (t.maxContexts < contextId) && !t.inactiveIds.contains contextId

def deactivateContext (t : ContextTree DataType ContextData) (contextId : ℕ) :
    ContextTree DataType ContextData :=
  { t with
    activeIds := t.activeIds.erase contextId
    inactiveIds := t.inactiveIds ++ [contextId] }

def flushLoop (maxContexts : ℕ) : List ℕ → List ℕ → Exec Container (List ℕ × List ℕ)
  | [], inactive =>
    if 2 * inactive.length < maxContexts then .error (.empty .activeIds) else .ok ([], inactive)
  | a :: active, inactive =>
    if 2 * inactive.length < maxContexts then flushLoop maxContexts active (inactive ++ [a])
    else .ok (a :: active, inactive)

def flushIds (t : ContextTree DataType ContextData) :
    Exec Container (ContextTree DataType ContextData) := do
  let (active, inactive) ← flushLoop t.maxContexts t.activeIds t.inactiveIds
  return { t with activeIds := active, inactiveIds := inactive }

def activateContext (t : ContextTree DataType ContextData) :
    Exec Container (ℕ × Context ContextData × ContextTree DataType ContextData) := do
  let t ← if t.inactiveIds = [] then t.flushIds else pure t
  let (contextId, inactive) ← popFront .inactiveIds t.inactiveIds
  let con ← fetch .contexts t.contexts contextId
  let con := { con with additionSize := 0, leaf := t.root }
  return (contextId, con,
    { t with
      inactiveIds := inactive
      activeIds := t.activeIds ++ [contextId]
      contexts := t.contexts.set contextId con })

variable [DecidableEq DataType]

def Tokens.number (tk : Tokens DataType) (c : DataType) : Tokens DataType where
  tokenNumber := tk.tokenNumber + 1
  dataList := tk.dataList ++ [c]
  dataMap := tk.dataMap.insert c tk.tokenNumber

-- `data_map_[c]`, which enters an element it does not hold with the value 0
def Tokens.index (tk : Tokens DataType) (c : DataType) : ℕ × Tokens DataType :=
  match tk.dataMap.lookup c with
  | some token => (token, tk)
  | none => (0, { tk with dataMap := tk.dataMap.insert c 0 })

def Context.resizePath (con : Context ContextData) (size : ℕ) : Context ContextData :=
  { con with path := con.path ++ List.replicate (size - con.path.length) {} }

def Context.storeId (con : Context ContextData) (i id : ℕ) : Context ContextData :=
  { con with path := con.path.modify i (fun p => { p with id := id }) }

def Context.storeToken (con : Context ContextData) (i token : ℕ) : Context ContextData :=
  { con with path := con.path.modify i (fun p => { p with token := token }) }

def recordAdditions (tk : Tokens DataType) (con : Context ContextData) (j : ℕ) :
    List DataType → Tokens DataType × Context ContextData
  | [] => (tk, con)
  | c :: cs =>
    let (token, tk) := tk.index c
    let con := con.storeToken j token
    recordAdditions tk { con with additionSize := con.additionSize + 1 } (j + 1) cs

-- The last argument is what `data_frag[length - i - 1]` has still to give.
def predictLoop (g : Graph) (tk : Tokens DataType) (con : Context ContextData) (v : ℕ)
    (i : ℕ) : List DataType → Tokens DataType × Context ContextData × List Callback
  | [] => (tk, con.storeId i (g.node v).id, [.pushPredict (g.node v).id i])
  | c :: cs =>
    let con := con.storeId i (g.node v).id
    let call := Callback.pushPredict (g.node v).id i
    match tk.dataMap.lookup c with
    | none =>
      let (tk, con) := recordAdditions (tk.number c) { con with leaf := v } (i + 1)
        (c :: cs)
      (tk, con, [call])
    | some token =>
      match descend g v token with
      | none =>
        let (tk, con) := recordAdditions tk { con with leaf := v } (i + 1) (c :: cs)
        (tk, con, [call])
      | some u =>
        let (tk, con, calls) := predictLoop g tk con u (i + 1) cs
        (tk, con, call :: calls)

def predict (t : ContextTree DataType ContextData) (dataFrag : List DataType) :
    Exec Container (ℕ × ContextTree DataType ContextData × List Callback) := do
  let (contextId, con, t) ← t.activateContext
  let (tokens, con, calls) := predictLoop t.tree t.tokens
    (con.resizePath (dataFrag.length + 1)) t.root 0 dataFrag.reverse
  return (contextId, { t with tokens := tokens, contexts := t.contexts.set contextId con },
    .startPredict :: calls ++ [.finishPredict])

variable (tp : Template)

-- the loop up to the leaf, and the leaf itself
def settleWalk (push : ℕ → ℕ → Callback) (leafId : ℕ) (index : ℕ) :
    List VertexProperty → Exec Container (List Callback × ℕ)
  | [] => .error (.outOfRange .path index index)
  | p :: path =>
    if p.id ≠ leafId then do
      let (calls, last) ← settleWalk push leafId (index + 1) path
      return (push p.id index :: calls, last)
    else .ok ([push p.id index], index)

-- how often `for(int i = index; i < depth && i < con.addition_size + index; ++i)` runs
def additionRounds (index : ℕ) (depth : ℤ) (additionSize : ℕ) : ℕ :=
  -- from 2^31 on the sum of the two `int`s has turned negative
  if additionSize + index < 2 ^ 31 then (min depth (additionSize + index : ℕ) - index).toNat
  else 0

def addNodesLoop (path : List VertexProperty) (index : ℕ) (regret : Bool) :
    ℕ → ℕ → Graph → ℕ → ℕ → Exec Container (Graph × ℕ × ℕ × List Callback)
  | 0, _, g, vertexNumber, last => .ok (g, vertexNumber, last, [])
  | rounds + 1, i, g, vertexNumber, last => do
    let p ← fetch .path path i
    let (g', n, leaf, calls) ← addNodesLoop path index regret rounds (i + 1)
      (addChild tp g vertexNumber last p.token) (vertexNumber + 1) g.length
    return (g', n, leaf, .addNode vertexNumber index regret :: calls)

def conAddNodes (t : ContextTree DataType ContextData) (con : Context ContextData) (index : ℕ)
    (depth : ℤ) (regret : Bool) : Exec Container (Graph × ℕ × ℕ × List Callback) :=
  addNodesLoop tp con.path index regret (additionRounds index depth con.additionSize) index
    t.tree t.vertexNumber con.leaf

-- `regret` and `reinforce` are one text up to the calls they make
def settle (push : ℕ → ℕ → Callback) (isRegret : Bool) (t : ContextTree DataType ContextData)
    (contextId : ℕ) (depth : ℤ) :
    Exec Container (ContextTree DataType ContextData × List Callback) :=
  if t.validateId contextId then do
    let con ← fetch .contexts t.contexts contextId
    let (pushes, index) ← settleWalk push (t.tree.node con.leaf).id 0 con.path
    let (g, n, leaf, additions) ← conAddNodes tp t con (index + 1) depth isRegret
    let t := { t with
      tree := g, vertexNumber := n
      contexts := t.contexts.set contextId { con with leaf := leaf } }
    return (t.deactivateContext contextId, pushes ++ additions)
  else .ok (t, [])

def regret : ContextTree DataType ContextData → ℕ → ℤ →
    Exec Container (ContextTree DataType ContextData × List Callback) :=
  settle tp .pushRegret true

def reinforce : ContextTree DataType ContextData → ℕ → ℤ →
    Exec Container (ContextTree DataType ContextData × List Callback) :=
  settle tp .pushReinforce false

end ContextTree

structure Visitor (M ContextData : Type) where
  visit : Callback → M × ContextData → Exec Container (M × ContextData)

def Visitor.silent : Visitor Unit Unit := ⟨fun _ s => .ok s⟩

namespace ContextTree

variable {DataType ContextData M : Type} [DecidableEq DataType] (tp : Template)
  (visitor : Visitor M ContextData)

def setData (t : ContextTree DataType ContextData) (contextId : ℕ) (data : ContextData) :
    ContextTree DataType ContextData :=
  { t with contexts := t.contexts.modify contextId (fun con => { con with data := data }) }

def callback (contextId : ℕ) (s : ContextTree DataType ContextData × M) (c : Callback) :
    Exec Container (ContextTree DataType ContextData × M) := do
  let con ← fetch .contexts s.1.contexts contextId
  let (m, data) ← visitor.visit c (s.2, con.data)
  return (s.1.setData contextId data, m)

def deliver (contextId : ℕ) (s : ContextTree DataType ContextData × M) (calls : List Callback) :
    Exec Container (ContextTree DataType ContextData × M) :=
  calls.foldlM (callback visitor contextId) s

inductive Request (DataType : Type) where
  | predict (dataFrag : List DataType)
  | regret (contextId : ℕ) (depth : ℤ)
  | reinforce (contextId : ℕ) (depth : ℤ)

def serve (s : ContextTree DataType ContextData × M) :
    Request DataType → Exec Container (ContextTree DataType ContextData × M)
  | .predict dataFrag => do
    let (contextId, t, calls) ← s.1.predict dataFrag
    deliver visitor contextId (t, s.2) calls
  | .regret contextId depth => do
    let (t, calls) ← s.1.regret tp contextId depth
    deliver visitor contextId (t, s.2) calls
  | .reinforce contextId depth => do
    let (t, calls) ← s.1.reinforce tp contextId depth
    deliver visitor contextId (t, s.2) calls

end ContextTree

end WordModel
