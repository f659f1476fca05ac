import LayerNet.Engine
import LayerNet.Engine.Capabilities

/-!
# An engine that records its calls

The recording engine builds nothing.  It hands out the handles 0, 1, 2, … and keeps a log of the
calls that it accepts.  It refuses handles that it has not handed out and, when it is given
capabilities, names that are not among them.
-/

namespace LayerNet

/-- A call that was accepted. -/
inductive LogEntry where
  | createLayer (handle : Handle) (layerType : String) (floatParams : List Float32)
      (stringParams : List String) (inner : List Handle) (bindings : List AuxBinding)
  | createMerge (handle : Handle) (reduction : String) (branches : List (List Handle))
  | addLayer (handle : Handle)
  deriving DecidableEq

/-- The log of an engine, the next handle and the names that it knows. -/
structure RecordingEngine where
  log : List LogEntry := []
  nextHandle : Handle := 0
  /-- Without capabilities every name is known. -/
  capabilities : Option Capabilities := none
  deriving DecidableEq, Inhabited

namespace RecordingEngine

/-- The layers appended to the network. -/
def added (e : RecordingEngine) : List Handle :=
  e.log.filterMap fun
    | .addLayer handle => some handle
    | _ => none

/-- The type of the layer with a handle. -/
def layerType? (e : RecordingEngine) (handle : Handle) : Option String :=
  e.log.findSome? fun
    | .createLayer h layerType _ _ _ _ => if h = handle then some layerType else none
    | _ => none

/-- Whether layers of a type may be created. -/
def checkLayerType (e : RecordingEngine) (layerType : String) : Except EngineError Unit :=
  match e.capabilities with
  | none => .ok ()
  | some c =>
    if c.layerTypes.contains layerType then .ok () else .error (.unknownLayerType layerType)

/-- Whether merges may have a reduction; an empty list of reductions allows all of them. -/
def checkReduction (e : RecordingEngine) (name : String) : Except EngineError Unit :=
  match e.capabilities with
  | none => .ok ()
  | some c =>
    if c.reductions.isEmpty || c.reductions.contains name then .ok ()
    else .error (.unknownReduction name)

/-- Whether all handles were handed out; the first that was not is named. -/
def checkHandles (e : RecordingEngine) (handles : List Handle) : Except EngineError Unit :=
  match handles.find? fun handle => e.nextHandle ≤ handle with
  | none => .ok ()
  | some handle => .error (.unknownHandle handle)

/-- A call that passes its checks is logged under the next handle. -/
def create (checks : RecordingEngine → Except EngineError Unit) (entry : Handle → LogEntry) :
    EngineCall RecordingEngine Handle := fun e =>
  match checks e with
  | .error refusal => (.error refusal, e)
  | .ok () =>
    (.ok e.nextHandle,
      { e with log := e.log ++ [entry e.nextHandle], nextHandle := e.nextHandle + 1 })

/-- A layer, if its type is known and all handles were handed out. -/
def createLayer (layerType : String) (floatParams : List Float32) (stringParams : List String)
    (inner : List Handle) (bindings : List AuxBinding) : EngineCall RecordingEngine Handle :=
  create
    (fun e => do
      e.checkLayerType layerType
      e.checkHandles (inner ++ bindings.map AuxBinding.handle))
    fun handle => .createLayer handle layerType floatParams stringParams inner bindings

/-- A merge, if its reduction is known and all handles were handed out. -/
def createMerge (reduction : String) (branches : List (List Handle)) :
    EngineCall RecordingEngine Handle :=
  create
    (fun e => do
      e.checkReduction reduction
      e.checkHandles branches.flatten)
    fun handle => .createMerge handle reduction branches

/-- A layer appended, if its handle was handed out. -/
def addLayer (handle : Handle) : EngineCall RecordingEngine Unit := fun e =>
  match e.checkHandles [handle] with
  | .error refusal => (.error refusal, e)
  | .ok () => (.ok (), { e with log := e.log ++ [.addLayer handle] })

instance : LayerEngine RecordingEngine where
  createLayer layerType floatParams stringParams :=
    createLayer layerType floatParams stringParams [] []
  createSpecial := createLayer
  createMerge := createMerge
  addLayer := addLayer

end RecordingEngine

end LayerNet
