import LayerNet.Report

/-!
# Training settings

Settings are kept with a network for a later training.  They are checked against fixed ranges, and
against what an engine offers (`LayerNet.Engine.Capabilities`).
-/

namespace LayerNet

/-- How a network is trained. -/
structure TrainSettings where
  epochs : Nat := 100
  batchSize : Nat := 32
  loss : String := "MeanSquaredError"
  optimizer : String := "Adam"
  learningRate : Float32 := Single.decimal 1 3
  momentum : Float32 := Single.decimal 9 1
  decay : Float32 := Single.decimal 0 0
  regularizer : String := "None"
  regularizerParam : Float32 := Single.decimal 1 2
  randomBatchOrder : Bool := true
  classBalancing : Bool := true
  keepBest : Bool := true
  validationBatchSize : Nat := 32
  deriving DecidableEq, Inhabited

namespace TrainSettings

/-- Whether a regularizer is set: the name is neither empty nor the word for none. -/
def hasRegularizer (s : TrainSettings) : Bool := s.regularizer ≠ "" && s.regularizer ≠ "None"

/-! ## Ranges -/

/-- The message about a setting that is out of its range. -/
def outside (name value first last : String) : List Diagnostic :=
  [.error s!"Training setting {name} = {value} is outside {first}..={last}" none]

/-- A count has to lie between one and `last`. -/
def checkCount (name : String) (value last : Nat) : List Diagnostic :=
  if 1 ≤ value ∧ value ≤ last then [] else outside name (toString value) "1" (toString last)

/-- A number has to lie between `first` and one. -/
def checkRate (name : String) (value first : Float32) : List Diagnostic :=
  let last := Single.decimal 1 0
  if first ≤ value ∧ value ≤ last then []
  else outside name (Single.plain value) (Single.plain first) (Single.plain last)

/-- The settings that are out of their ranges. -/
def validate (s : TrainSettings) : Report :=
  ⟨checkCount "epochs" s.epochs 10000 ++
    checkCount "batch size" s.batchSize 1000 ++
    checkRate "learning rate" s.learningRate (Single.decimal 1 4) ++
    checkRate "momentum" s.momentum (Single.decimal 0 0) ++
    checkRate "decay" s.decay (Single.decimal 0 0) ++
    checkRate "regularizer parameter" s.regularizerParam (Single.decimal 0 0) ++
    checkCount "validation batch size" s.validationBatchSize 1000⟩

/-! ## JSON -/

/-- The names of the fields. -/
def fieldNames : List String :=
  ["epochs", "batchSize", "loss", "optimizer", "learningRate", "momentum", "decay", "regularizer",
    "regularizerParam", "randomBatchOrder", "classBalancing", "keepBest", "validationBatchSize"]

/-- Writes settings. -/
def toJson (s : TrainSettings) : Json :=
  Json.record
    [("epochs", Json.ofNat s.epochs), ("batchSize", Json.ofNat s.batchSize),
      ("loss", Json.ofString s.loss), ("optimizer", Json.ofString s.optimizer),
      ("learningRate", Single.toJson s.learningRate), ("momentum", Single.toJson s.momentum),
      ("decay", Single.toJson s.decay), ("regularizer", Json.ofString s.regularizer),
      ("regularizerParam", Single.toJson s.regularizerParam),
      ("randomBatchOrder", .bool s.randomBatchOrder), ("classBalancing", .bool s.classBalancing),
      ("keepBest", .bool s.keepBest), ("validationBatchSize", Json.ofNat s.validationBatchSize)]

/-- Reads settings; fields that are left out have their default values. -/
def ofJson? (value : Json) : Option TrainSettings := do
  let fields ← value.fields? fieldNames
  let d : TrainSettings := {}
  return {
    epochs := ← fields.default? "epochs" Json.word32? d.epochs
    batchSize := ← fields.default? "batchSize" Json.word32? d.batchSize
    loss := ← fields.default? "loss" Json.string? d.loss
    optimizer := ← fields.default? "optimizer" Json.string? d.optimizer
    learningRate := ← fields.default? "learningRate" Json.single? d.learningRate
    momentum := ← fields.default? "momentum" Json.single? d.momentum
    decay := ← fields.default? "decay" Json.single? d.decay
    regularizer := ← fields.default? "regularizer" Json.string? d.regularizer
    regularizerParam := ← fields.default? "regularizerParam" Json.single? d.regularizerParam
    randomBatchOrder := ← fields.default? "randomBatchOrder" Json.bool? d.randomBatchOrder
    classBalancing := ← fields.default? "classBalancing" Json.bool? d.classBalancing
    keepBest := ← fields.default? "keepBest" Json.bool? d.keepBest
    validationBatchSize :=
      ← fields.default? "validationBatchSize" Json.word32? d.validationBatchSize }

/-- Reads the text of settings. -/
def parse? : String → Option TrainSettings := Json.decode? ofJson?

end TrainSettings

end LayerNet
