import WordModel.SimpleModel.Parser

/-! The word model that predicts the word that followed most often. -/

namespace WordModel

open Checked WordModel.Parser

structure SimpleModel where
  parser : Parser
  inputString : Word
  wordModes : AList fun _ : Word => Word
  delimiters : List Word
  detectedInterface : Bool
  prediction : Word
  lastPredictionId : UInt32
  lastPredictionWeight : UInt32

namespace SimpleModel

/-- What the constructors leave as they find it. -/
structure Found where
  lastIndex : ℕ
  detectedInterface : Bool
  lastPredictionId : UInt32
  lastPredictionWeight : UInt32

def construct (delimiters : List Word) (found : Found) : Exec Container SimpleModel := do
  let parser ← Parser.construct found.lastIndex
  return ⟨parser, [], ∅, delimiters, found.detectedInterface, [], found.lastPredictionId,
    found.lastPredictionWeight⟩

-- `" \t\n\v\f\r;:,.?!\""`
def tokenizerDelims : Word := [32, 9, 10, 11, 12, 13, 59, 58, 44, 46, 63, 33, 34]

def defaultDelimiters : List Word := tokenizerDelims.map (fun c => [c])

def detect (m : SimpleModel) : SimpleModel × Bool :=
  let detectedInterface := m.delimiters.isEmpty || m.delimiters.any (fun d => m.inputString == d)
  ({ m with detectedInterface := detectedInterface }, detectedInterface)

def putc (m : SimpleModel) (c : UInt8) : SimpleModel × Bool :=
  if c = 0 then (m, m.detectedInterface)
  else if c = 8 then
    if 0 < m.inputString.length then detect { m with inputString := m.inputString.dropLast }
    else (m, m.detectedInterface)
  else detect { m with inputString := m.inputString ++ [c] }

def getPrediction (m : SimpleModel) (predictionId : Option UInt32) : SimpleModel × Word :=
  ({ m with lastPredictionId := predictionId.getD m.lastPredictionId }, m.prediction)

def getPredictionWeight (m : SimpleModel) (predictionId : UInt32) : UInt32 :=
  if predictionId = m.lastPredictionId then m.lastPredictionWeight else 0

structure Training where
  wordModes : AList fun _ : Word => Word
  count : UInt32
  wordI : Word
  wordJ : Word

-- A word that is not found is left as it was.
def readWord (p : Parser) (index : ℕ) (word : Word) : Exec Container Word := do
  let found ← p.getWord index
  return found.getD word

def trainPair (p : Parser) (i : ℕ) (t : Training) (j : ℕ) : Exec Container Training :=
  if t.count < p.countPairAt i j then do
    let wordI ← readWord p i t.wordI
    let wordJ ← readWord p j t.wordJ
    return ⟨t.wordModes.insert wordI wordJ, p.countPairAt i j, wordI, wordJ⟩
  else return t

def trainWord (p : Parser) (t : Training) (i : ℕ) : Exec Container Training := do
  let js ← p.iteratePairs i
  js.foldlM (trainPair p i) { t with count := 0 }

def doTrain (m : SimpleModel) : Exec Container SimpleModel := do
  let t ← (List.range m.parser.wordNumber).foldlM (trainWord m.parser) ⟨m.wordModes, 0, [], []⟩
  return { m with wordModes := t.wordModes }

def interface (m : SimpleModel) (interface : Bool) : Exec Container SimpleModel :=
  if interface && 0 < m.inputString.length then do
    let parser ← m.parser.addWord m.inputString
    let m ← doTrain { m with parser := parser }
    -- `word_modes_[..]` makes an empty word for a key that is not there
    let prediction := (m.wordModes.lookup m.inputString).getD []
    let wordModes := m.wordModes.insert m.inputString prediction
    return { m with
      prediction := prediction
      wordModes := wordModes
      lastPredictionWeight := m.parser.countPair m.inputString prediction
      inputString := [] }
  else .ok m

inductive Call where
  | putc (c : UInt8)
  | interface (interface : Bool)

def step (m : SimpleModel) : Call → Exec Container SimpleModel
  | .putc c => .ok (m.putc c).1
  | .interface b => m.interface b

def committed (m : SimpleModel) : Call → SimpleModel → List Word
  | .interface true, _ => if m.inputString = [] then [] else [m.inputString]
  | _, _ => []

def Reached (delimiters : List Word) (found : Found) (calls : List Call)
    (s : SimpleModel × List Word) : Prop :=
  ∃ m₀, construct delimiters found = .ok m₀ ∧
    Runs.Run (Runs.traced step committed) (fun _ _ => True) (m₀, []) calls s

end SimpleModel

end WordModel
