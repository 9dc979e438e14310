import WordModel.ContextTree.Feedback

/-! The word model over a context tree of bounded depth: it learns from every word that
it predicted wrongly, and predicts the next word from the last ones. Weights are sums of
whole numbers, so a `double` is an integer here. -/

namespace WordModel

open Checked ContextTree

namespace BoundedCTModel

abbrev Word := List UInt8

/-- All members but `ct_`, whose visitor the model is. -/
structure Members where
  tokenNumber : ℕ
  prediction : ℕ
  weights : List (AList fun _ : ℕ => ℤ)
  rootWeights : List ℤ
  wordMap : AList fun _ : Word => ℕ
  words : List Word
  predictionContext : List ℕ
  predictionId : ℕ
  bound : UInt32
  mistakes : ℕ
  currentString : Word
  detectedInterface : Bool

end BoundedCTModel

structure BoundedCTModel extends BoundedCTModel.Members where
  ct : ContextTree ℕ (List ℤ)

namespace BoundedCTModel

def rootNode : ℕ := 0
def interfaceId : ℕ := 1

def interfaceToken : Word :=
  ['<', '<', '!', '-', '-', 'I', 'N', 'T', 'E', 'R', 'F', 'A', 'C', 'E', '-', '-', '!', '>', '>'].map
    (fun c => c.toNat.toUInt8)

-- The constructor leaves `prediction_id_` as it finds it.
def fresh (bound : UInt32) (predictionId : ℕ) : BoundedCTModel where
  tokenNumber := 2
  prediction := 0
  weights := []
  rootWeights := [1, 0]
  wordMap := AList.insert interfaceToken 1 (AList.insert [] 0 ∅)
  words := [[], interfaceToken]
  predictionContext := []
  predictionId := predictionId
  bound := bound
  mistakes := 0
  currentString := []
  detectedInterface := false
  ct := ContextTree.fresh [] 20

/-- What an assignment past the end of `root_weights_` does: nothing is promised of it. -/
inductive Overrun where
  | faults
  | dropped

structure Platform where
  pastEnd : Graph → ℕ → ℕ → ℕ
  overrun : Overrun

def Platform.template (p : Platform) : Template := .ofDefault p.pastEnd

def assignRoot (o : Overrun) (rootWeights : List ℤ) (i : ℕ) (f : ℤ → ℤ) :
    Exec Container (List ℤ) :=
  match o with
  | .faults => update .rootWeights rootWeights i f
  | .dropped => .ok (rootWeights.modify i f)

def startPredict (m : Members) (data : List ℤ) : Exec Container (Members × List ℤ) := do
  let size := m.rootWeights.length
  let data := data.take size ++ List.replicate (size - data.length) 0
  let data ← (List.range size).foldlM (fun data i => do
    let w ← fetch .rootWeights m.rootWeights i
    update .contextData data i (fun _ => w)) data
  return ({ m with prediction := 0 }, data)

def pushPredict (m : Members) (node : ℕ) (data : List ℤ) : Exec Container (Members × List ℤ) :=
  if node ≠ rootNode then do
    let ws ← fetch .weights m.weights (node - 1)
    let data ← ws.entries.foldlM (fun data w => update .contextData data w.1 (· + w.2)) data
    return (m, data)
  else .ok (m, data)

-- `while(root_weights_.size() < token_number_)`, with the rounds it takes
def growRootWeights (mistakes : ℕ) : ℕ → List ℤ → List ℤ
  | 0, rootWeights => rootWeights
  | n + 1, rootWeights =>
    growRootWeights mistakes n (rootWeights ++ [((mistakes / rootWeights.length : ℕ) : ℤ)])

def finishPredict (m : Members) (data : List ℤ) : Exec Container (Members × List ℤ) := do
  let (_, prediction) ← (List.range data.length).foldlM (fun (least : ℤ × ℕ) i => do
    let w ← fetch .contextData data i
    return if w < least.1 then (w, i) else least) ((m.mistakes : ℤ), m.prediction)
  return ({ m with
    prediction := prediction
    rootWeights := growRootWeights m.mistakes (m.tokenNumber - m.rootWeights.length)
      m.rootWeights }, data)

-- `find`, and then the assignment of a new entry or the addition to the old one
def chargeWord (word : ℕ) (amount : ℤ) (ws : AList fun _ : ℕ => ℤ) : AList fun _ : ℕ => ℤ :=
  match ws.lookup word with
  | none => ws.insert word amount
  | some w => ws.insert word (w + amount)

-- `push_regret` adds 1 where `push_reinforce` adds -1.
def pushFeedback (o : Overrun) (amount : ℤ) (m : Members) (node : ℕ) (data : List ℤ) :
    Exec Container (Members × List ℤ) :=
  if node = rootNode then do
    let rootWeights ← assignRoot o m.rootWeights m.prediction (· + amount)
    return ({ m with rootWeights := rootWeights }, data)
  else do
    let weights ← update .weights m.weights (node - 1) (chargeWord m.prediction amount)
    return ({ m with weights := weights }, data)

def pushRegret (o : Overrun) : Members → ℕ → List ℤ → Exec Container (Members × List ℤ) :=
  pushFeedback o 1

def pushReinforce (o : Overrun) : Members → ℕ → List ℤ → Exec Container (Members × List ℤ) :=
  pushFeedback o (-1)

def addNode (o : Overrun) (m : Members) (node : ℕ) (data : List ℤ) (regret : Bool) :
    Exec Container (Members × List ℤ) :=
  let m := { m with weights := m.weights ++ [∅] }
  if regret then pushRegret o m node data else pushReinforce o m node data

def visitor (o : Overrun) : Visitor Members (List ℤ) where
  visit
    | .startPredict, (m, data) => startPredict m data
    | .pushPredict node _, (m, data) => pushPredict m node data
    | .finishPredict, (m, data) => finishPredict m data
    | .pushRegret node _, (m, data) => pushRegret o m node data
    | .pushReinforce node _, (m, data) => pushReinforce o m node data
    | .addNode node _ regret, (m, data) => addNode o m node data regret

def putc (m : BoundedCTModel) (c : UInt8) : BoundedCTModel × Bool :=
  let m :=
    if c ≠ 0 then
      if c = 8 then
        if 0 < m.currentString.length then { m with currentString := m.currentString.dropLast }
        else m
      else { m with currentString := m.currentString ++ [c] }
    else m
  (m, m.detectedInterface)

-- The caller's integer is read where one is passed; what it holds afterwards comes second.
def getPrediction (m : BoundedCTModel) (predictionId : Option ℕ) :
    Exec Container (BoundedCTModel × Option ℕ × Word) := do
  let m := match predictionId with
    | some id => { m with predictionId := id }
    | none => m
  let word ← fetch .words m.words m.prediction
  return (m, predictionId, word)

def trainingMistakes (m : BoundedCTModel) : ℕ := m.mistakes

/-- The `unsigned int` bound, passed as an `int` depth. -/
def depth (m : BoundedCTModel) : ℤ := m.bound.toInt32.toInt

variable (p : Platform)

def serveTree (m : BoundedCTModel) (r : Request ℕ) : Exec Container BoundedCTModel := do
  let (ct, members) ← serve p.template (visitor p.overrun) (m.ct, m.toMembers) r
  return { members with ct := ct }

def addWord (m : BoundedCTModel) : BoundedCTModel :=
  match m.wordMap.lookup m.currentString with
  | none =>
    { m with
      wordMap := m.wordMap.insert m.currentString m.tokenNumber
      tokenNumber := m.tokenNumber + 1
      words := m.words ++ [m.currentString] }
  | some _ => m

-- `word_map_[current_string_]`, once the word is there
def currentToken (m : BoundedCTModel) : ℕ := (m.wordMap.lookup m.currentString).getD 0

def correct (m : BoundedCTModel) : Exec Container BoundedCTModel :=
  if m.prediction ≠ m.currentToken then
    let m := { m with mistakes := m.mistakes + 1, prediction := m.currentToken }
    serveTree p m (.reinforce m.predictionId m.depth)
  else .ok m

def popWhileOver (bound : ℕ) : List ℕ → List ℕ
  | [] => []
  | n :: ns => if bound < (n :: ns).length then popWhileOver bound ns else n :: ns

def pushContext (m : BoundedCTModel) : BoundedCTModel :=
  { m with
    predictionContext := popWhileOver m.bound.toNat (m.predictionContext ++ [m.currentToken]) }

/-- `do_predict` up to the call of `ct_.predict`. -/
def prepare (m : BoundedCTModel) : Exec Container BoundedCTModel := do
  let m ← correct p m.addWord
  return m.pushContext

def predictNext (m : BoundedCTModel) : Exec Container BoundedCTModel := do
  let (contextId, ct, calls) ← m.ct.predict m.predictionContext
  let (ct, members) ← deliver (visitor p.overrun) contextId
    (ct, { m.toMembers with predictionId := contextId }) calls
  return { members with
    ct := ct
    currentString := []
    detectedInterface := members.predictionId == interfaceId }

def doPredict (m : BoundedCTModel) : Exec Container BoundedCTModel := do
  let m ← prepare p m
  predictNext p m

def interface (m : BoundedCTModel) (atInterface : Bool) : Exec Container BoundedCTModel :=
  if atInterface ∧ 0 < m.currentString.length then doPredict p m else .ok m

def predictionResult (m : BoundedCTModel) (predictionId : ℕ) (outcome : Bool) :
    Exec Container BoundedCTModel :=
  if !outcome then serveTree p m (.regret predictionId m.depth) else .ok m

inductive Call where
  | putc (c : UInt8)
  | interface (atInterface : Bool)
  | getPrediction (predictionId : Option ℕ)
  | predictionResult (predictionId : ℕ) (outcome : Bool)
  deriving DecidableEq

def step (m : BoundedCTModel) : Call → Exec Container BoundedCTModel
  | .putc c => .ok (m.putc c).1
  | .interface atInterface => interface p m atInterface
  | .getPrediction predictionId => do
    let (m, _, _) ← m.getPrediction predictionId
    return m
  | .predictionResult predictionId outcome => predictionResult p m predictionId outcome

structure Commit where
  word : Word
  mistaken : Bool
  /-- Of the prediction made after it: the context, what was predicted, what it visited. -/
  contextId : ℕ
  prediction : ℕ
  visited : List ℕ

def visitedFrom (m : BoundedCTModel) : List ℕ :=
  match m.ct.predict m.predictionContext with
  | .ok (_, _, calls) => calls.filterMap Callback.visits
  | .error _ => []

def commits (m : BoundedCTModel) : Call → BoundedCTModel → List Commit
  | .interface true, m' =>
    if 0 < m.currentString.length then
      match prepare p m with
      | .ok r =>
        [{ word := m.currentString
           mistaken := decide (m.words[m.prediction]? ≠ some m.currentString)
           contextId := m'.predictionId
           prediction := m'.prediction
           visited := r.visitedFrom }]
      | .error _ => []
    else []
  | _, _ => []

abbrev Reached (guard : BoundedCTModel × List Commit → Call → Prop) (bound : UInt32)
    (predictionId : ℕ) (calls : List Call) (s : BoundedCTModel × List Commit) : Prop :=
  Runs.Run (Runs.traced (step p) (commits p)) guard (fresh bound predictionId, []) calls s

end BoundedCTModel

end WordModel
