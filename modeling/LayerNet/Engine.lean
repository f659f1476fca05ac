import LayerNet.Special

/-!
# Engines

An engine builds the layers of a compiled network one call at a time.  It answers the creation of a
layer or of a merge with a handle, by which later calls refer to it, and it may refuse any call.  A
refused call may leave the engine in another state, so the state is kept beside the answer.
-/

namespace LayerNet

/-- What an engine gives out for a layer that it has created. -/
abbrev Handle := Nat

/-- Why an engine refuses a call. -/
inductive EngineError where
  | unknownLayerType (layerType : String)
  | unknownReduction (name : String)
  | unknownHandle (handle : Handle)
  | rejected (reason : String)
  deriving DecidableEq, Repr

/-- The wording of a refusal. -/
def EngineError.message : EngineError → String
  | unknownLayerType layerType => s!"unknown layer type '{layerType}'"
  | unknownReduction name => s!"unknown reduction '{name}'"
  | unknownHandle handle => s!"handle {handle} was not created by this engine"
  | rejected reason => reason

/-- An auxiliary port of a special layer with the layer that it is joined to. -/
structure AuxBinding where
  port : Nat
  role : AuxRole
  handle : Handle
  deriving DecidableEq, Repr

/-- A call to an engine with the state `ε`. -/
abbrev EngineCall (ε : Type) (α : Type) := ExceptT EngineError (StateM ε) α

/-- Engines with the state `ε`. -/
class LayerEngine (ε : Type) where
  /-- A layer from its type and its numeric and string parameters. -/
  createLayer : String → List Float32 → List String → EngineCall ε Handle
  /-- A layer with layers inside it and bindings of its auxiliary ports. -/
  createSpecial : String → List Float32 → List String → List Handle → List AuxBinding →
    EngineCall ε Handle
  /-- A merge of branches, by the name of its reduction. -/
  createMerge : String → List (List Handle) → EngineCall ε Handle
  /-- A layer appended to the network. -/
  addLayer : Handle → EngineCall ε Unit

/-! ## Engines that refuse a call -/

/-- An engine that counts its calls and refuses one of them before it is made. -/
structure RefusingEngine (ε : Type) where
  engine : ε
  /-- How many calls there were. -/
  count : Nat := 0
  /-- The call to refuse, counted from zero. -/
  refused : Option Nat := none
  /-- What the refused call is answered with, by its number. -/
  refusal : Nat → EngineError := fun call => .rejected s!"call {call} refused"

namespace RefusingEngine

variable {ε α : Type}

/-- A call that is counted, and passed on unless it is the one to refuse. -/
def forward (call : EngineCall ε α) : EngineCall (RefusingEngine ε) α := fun e =>
  if e.refused = some e.count then
    (.error (e.refusal e.count), { e with count := e.count + 1 })
  else
    let (answer, engine) := call e.engine
    (answer, { e with engine, count := e.count + 1 })

instance [LayerEngine ε] : LayerEngine (RefusingEngine ε) where
  createLayer layerType floatParams stringParams :=
    forward (LayerEngine.createLayer layerType floatParams stringParams)
  createSpecial layerType floatParams stringParams inner bindings :=
    forward (LayerEngine.createSpecial layerType floatParams stringParams inner bindings)
  createMerge reduction branches := forward (LayerEngine.createMerge reduction branches)
  addLayer handle := forward (LayerEngine.addLayer handle)

end RefusingEngine

end LayerNet
