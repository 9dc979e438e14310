import WordModel.BoundedCTModel.Drawings
import WordModel.Library.Decimal
import WordModel.ModelMultiplexer.Words

/-! What is asked of a multiplexer besides its characters: a prediction, which the highest level
gives that all levels below are at an interface for, and what its levels add up to. -/

namespace WordModel

open Checked Decimal

structure WordModelType (ε M : Type) extends ModelType ε M where
  detectedInterface : M → Bool
  getPrediction : M → Option UInt32 → Except ε (M × Bytes)
  trainingMistakes : M → ℤ
  writeSummary : M → Except ε (M × Bytes)

namespace ModelMultiplexer

variable {ε M : Type} (mt : WordModelType ε M)

/-- How many levels the loop of `get_prediction` goes up. -/
def climb : List M → ℕ
  | m :: m' :: ms => if mt.detectedInterface m then climb (m' :: ms) + 1 else 0
  | _ => 0

def getPrediction (s : ModelMultiplexer M) (predictionId : Option UInt32) :
    Except (Fault ε) (ModelMultiplexer M × Bytes) :=
  let i := climb mt s.models
  match s.models[i]? with
  | none => .error .noModels
  | some m => do
    let (m, prediction) ← (mt.getPrediction m predictionId).mapError .model
    return ({ s with models := s.models.set i m }, prediction)

def trainingMistakes (s : ModelMultiplexer M) : ℤ :=
  s.models.foldl (fun sum m => sum + mt.trainingMistakes m) 0

def title : Bytes :=
  "A model multiplexer containing models from smallest token size to largest\n".toList.map ascii

def writeSummaries : List M → Bytes → Except ε (List M × Bytes)
  | [], out => .ok ([], out)
  | m :: ms, out => do
    let (m, text) ← mt.writeSummary m
    let (ms, out) ← writeSummaries ms (out ++ text)
    return (m :: ms, out)

def writeSummary (s : ModelMultiplexer M) : Except (Fault ε) (ModelMultiplexer M × Bytes) := do
  let (models, out) ← (writeSummaries mt s.models title).mapError .model
  return ({ s with models := models }, out)

end ModelMultiplexer

namespace BoundedCTModel

-- `graphviz` is the text that `boost::write_graphviz` writes of a drawing.
def modelType (p : Platform) (graphviz : ContextTree.Drawing Word → Bytes) :
    WordModelType (Checked.Fault ContextTree.Container) BoundedCTModel where
  putc := putc
  interface := interface p
  detectedInterface m := m.detectedInterface
  getPrediction m predictionId := do
    let (m, _, word) ← m.getPrediction (predictionId.map UInt32.toNat)
    return (m, word)
  trainingMistakes m := m.trainingMistakes
  writeSummary m := do
    let (m, drawing) ← m.writeSummary
    return (m, graphviz drawing)

/-- The models of a multiplexer, each built with the bound that the default constructor has. -/
def construct (predictionIds : List ℕ) (interface : Bool) : ModelMultiplexer BoundedCTModel :=
  ⟨predictionIds.map (fresh 5), interface⟩

end BoundedCTModel

namespace SimpleModel

open WordModel.Parser

-- `order` is the order in which the hash map lists its entries.
def writeSummary (order : (AList fun _ : Word => Word) → List (Word × Word)) (m : SimpleModel) :
    Bytes :=
  "Simple Word Model:\nWord : Mode \n".toList.map ascii ++
    (order m.wordModes).flatMap (fun e => " [".toList.map ascii ++ e.1 ++
      "] : [".toList.map ascii ++ e.2 ++ "] \n".toList.map ascii) ++ "\n".toList.map ascii

-- `training_mistakes` is the one that `WordModel` has.
def modelType (order : (AList fun _ : Word => Word) → List (Word × Word)) :
    WordModelType (Checked.Fault Container) SimpleModel where
  putc := putc
  interface := interface
  detectedInterface := detectedInterface
  getPrediction m predictionId := .ok (m.getPrediction predictionId)
  trainingMistakes _ := 0
  writeSummary m := .ok (m, m.writeSummary order)

end SimpleModel

end WordModel
