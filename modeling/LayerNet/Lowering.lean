import LayerNet.Compile
import LayerNet.Engine

/-!
# Building layers in an engine

A forest is built from the inside out: the subgraph of a special layer before the layer, the
branches of a group before their merge.  The layers of the top level are appended to the network at
the end, when everything has been created.

The handle of each node is kept, because the auxiliary ports of a special layer are bound to the
layers of its subgraph.  The first call that the engine refuses ends the building.
-/

namespace LayerNet

/-- What was being done when an engine refused a call. -/
inductive BuildStep where
  | creatingLayer (layerType : String) (node : NodeId)
  | bindingPort (port : Nat) (special : NodeId)
  | creatingMerge (reduction : Reduction) (branches : Nat)
  | addingLayer (handle : Handle)
  deriving DecidableEq, Repr

/-- The wording of a step. -/
def BuildStep.message : BuildStep → String
  | creatingLayer layerType node => s!"creating layer '{layerType}' for node #{node}"
  | bindingPort port special => s!"binding aux port {port} of node #{special}"
  | creatingMerge reduction branches =>
    s!"creating {reduction.name} merge of {branches} branch(es)"
  | addingLayer handle => s!"adding layer {handle} to the network"

/-- Why a network is not built. -/
inductive BuildError where
  | compile (error : CompileError)
  | engine (step : BuildStep) (refusal : EngineError)
  deriving DecidableEq, Repr

/-- The wording of a failure. -/
def BuildError.message : BuildError → String
  | compile error => error.message
  | engine step refusal => s!"Engine failed while {step.message}: {refusal.message}"

/-- The handles of the nodes that have layers, the latest first. -/
abbrev NodeHandles := List (NodeId × Handle)

/-- Building under way in an engine with the state `ε`. -/
abbrev Lowering (ε : Type) := StateT NodeHandles (ExceptT BuildError (StateM ε))

namespace Lowering

variable {ε : Type}

/-- A call to the engine, whose refusal ends the building. -/
def call {α : Type} (step : BuildStep) (request : EngineCall ε α) : Lowering ε α := fun handles e =>
  match request e with
  | (.ok a, e) => (.ok (a, handles), e)
  | (.error refusal, e) => (.error (.engine step refusal), e)

/-- Keeps the handle of a node. -/
def assign (node : NodeId) (handle : Handle) : Lowering ε Unit := modify ((node, handle) :: ·)

/-- The binding of a wire to the layer of its node. -/
def bind (special : NodeId) (link : AuxLink) : Lowering ε AuxBinding := do
  match (← get).lookup link.node with
  | some handle => return ⟨link.port, link.role, handle⟩
  | none =>
    throw (.engine (.bindingPort link.port special) (.rejected s!"node #{link.node} has no layer"))

variable [LayerEngine ε]

mutual

/-- The handles of the layers of a tree, in the order in which they run. -/
def tree : Layer → Lowering ε (List Handle)
  | .node source inner links children => do
    let step := BuildStep.creatingLayer source.layerType source.id
    let handle ←
      if inner.isEmpty && links.isEmpty then
        call step
          (LayerEngine.createLayer source.layerType source.floatParams source.stringParams)
      else do
        let inner ← forest inner
        let bindings ← links.mapM (bind source.id)
        call step (LayerEngine.createSpecial source.layerType source.floatParams
          source.stringParams inner bindings)
    assign source.id handle
    return handle :: (← forest children)
  | .sequence steps => forest steps
  | .parallel reduction merge children => do
    let branches ← branches children
    let handle ← call (.creatingMerge reduction branches.length)
      (LayerEngine.createMerge reduction.name branches)
    match merge with
    | some node => assign node handle
    | none => pure ()
    return [handle]

/-- The handles of the layers of a forest. -/
def forest : List Layer → Lowering ε (List Handle)
  | [] => return []
  | layer :: layers => do
    let handles ← tree layer
    return handles ++ (← forest layers)

/-- The handles of the branches of a group, branch by branch. -/
def branches : List Layer → Lowering ε (List (List Handle))
  | [] => return []
  | layer :: layers => do
    let handles ← tree layer
    return handles :: (← branches layers)

end

end Lowering

/-- Builds a forest and appends its layers to the network. -/
def lower {ε : Type} [LayerEngine ε] (forest : List Layer) : Lowering ε (List Handle) := do
  let handles ← Lowering.forest forest
  handles.forM fun handle => Lowering.call (.addingLayer handle) (LayerEngine.addLayer handle)
  return handles

/-- The answer of a building that starts without handles, and the engine after it. -/
def Lowering.runIn {ε α : Type} (building : Lowering ε α) (engine : ε) :
    Except BuildError α × ε :=
  match building [] engine with
  | (.ok (a, _), engine) => (.ok a, engine)
  | (.error e, engine) => (.error e, engine)

/-- Compiles a network and builds it.  Nothing is built unless it compiles. -/
def Graph.build {ε : Type} [LayerEngine ε] (g : Graph) (config : CompilerConfig) (engine : ε) :
    Except BuildError (List Handle) × ε :=
  match g.compile config with
  | .error e => (.error (.compile e), engine)
  | .ok forest => (lower forest).runIn engine

end LayerNet
