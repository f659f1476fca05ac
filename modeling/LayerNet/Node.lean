import LayerNet.Special

/-!
# Nodes

A node carries what a layer is built from (type and parameters), what an editor shows (label and
position) and the state of its ports.  Its auxiliary ports are those that its special kind fixes,
by the type.
-/

namespace LayerNet

/-- A place on the canvas of an editor. -/
structure Position where
  x : Float32
  y : Float32
  deriving DecidableEq

namespace Position

instance : Inhabited Position := ⟨⟨0, 0⟩⟩

/-- The place moved by an offset. -/
def move (p offset : Position) : Position := ⟨p.x + offset.x, p.y + offset.y⟩

end Position

/-- A node of a network. -/
structure Node where
  id : NodeId
  layerType : String
  label : String := layerType
  position : Position := default
  stringParams : List String := []
  floatParams : List Float32 := []
  /-- The kind of a special node. -/
  special : Option SpecialKind := none
  /-- The primary input. -/
  input : Port := {}
  /-- The primary output. -/
  output : Port := {}
  /-- The auxiliary ports, in the order of their numbers. -/
  aux : List Port
  /-- Each port of the layout has its state. -/
  aux_length : aux.length = (auxLayout special).length

namespace Node

/-- A node without edges. -/
def new (id : NodeId) (layerType : String) (special : Option SpecialKind) (position : Position) :
    Node where
  id
  layerType
  position
  special
  aux := List.replicate (auxLayout special).length {}
  aux_length := by simp

/-- Whether the node owns a subgraph. -/
def isSpecial (n : Node) : Bool := n.special.isSome

/-- The slots of the node: primary input, primary output, auxiliary ports. -/
def slots (n : Node) : List Slot :=
  .input :: .output :: (List.range n.aux.length).map Slot.aux

/-- The state of the port at a slot, if the node has this slot. -/
def port? (n : Node) : Slot → Option Port
  | .input => some n.input
  | .output => some n.output
  | .aux index => n.aux[index]?

/-- The direction of the port at a slot, if the node has this slot. -/
def direction? (n : Node) : Slot → Option Direction
  | .input => some .input
  | .output => some .output
  | .aux index => (auxLayout n.special)[index]?.map AuxPort.direction

/-- The name of the port at a slot. -/
def portName (n : Node) : Slot → String
  | .input => "in"
  | .output => "out"
  | .aux index => ((auxLayout n.special)[index]?.map AuxPort.name).getD ""

/-- All ports with their slots. -/
def ports (n : Node) : List (Slot × Port) :=
  (.input, n.input) :: (.output, n.output) :: n.aux.zipIdx.map fun (p, i) => (.aux i, p)

/-- The node with the port at one slot changed; nothing happens if there is no such slot. -/
def modifyPort (n : Node) (slot : Slot) (f : Port → Port) : Node :=
  match slot with
  | .input => { n with input := f n.input }
  | .output => { n with output := f n.output }
  | .aux index =>
    { n with aux := n.aux.modify index f, aux_length := by simpa using n.aux_length }

/-- The node with all its ports changed. -/
def mapPorts (n : Node) (f : Port → Port) : Node :=
  { n with
    input := f n.input
    output := f n.output
    aux := n.aux.map f
    aux_length := by simpa using n.aux_length }

/-- Whether a port of the node has an edge. -/
def hasConnections (n : Node) : Bool := n.ports.any fun (_, p) => p.isConnected

/-- How many edges the ports of the node have together. -/
def connectionCount (n : Node) : Nat := (n.ports.flatMap fun (_, p) => p.peers).length

/-! ## What the changes do to a port -/

@[simp] theorem id_modifyPort (n : Node) (slot : Slot) (f : Port → Port) :
    (n.modifyPort slot f).id = n.id := by
  cases slot <;> rfl

@[simp] theorem id_mapPorts (n : Node) (f : Port → Port) : (n.mapPorts f).id = n.id := rfl

/-- A node has the ports that have a direction. -/
theorem isSome_port? (n : Node) (slot : Slot) :
    (n.port? slot).isSome = (n.direction? slot).isSome := by
  cases slot with
  | input => rfl
  | output => rfl
  | aux index =>
    rw [Bool.eq_iff_iff]
    simp [port?, direction?, n.aux_length]

/-- A change of one port is seen at its slot and nowhere else. -/
theorem port?_modifyPort (n : Node) (slot s : Slot) (f : Port → Port) :
    (n.modifyPort slot f).port? s = if slot = s then (n.port? s).map f else n.port? s := by
  cases slot <;> cases s <;> simp [modifyPort, port?]
  rename_i i j
  rw [List.getElem?_modify]
  by_cases h : i = j <;> simp [h]

/-- A change of all ports is seen at every slot. -/
theorem port?_mapPorts (n : Node) (s : Slot) (f : Port → Port) :
    (n.mapPorts f).port? s = (n.port? s).map f := by
  cases s <;> simp [mapPorts, port?]

@[simp] theorem direction?_modifyPort (n : Node) (slot s : Slot) (f : Port → Port) :
    (n.modifyPort slot f).direction? s = n.direction? s := by
  cases slot <;> cases s <;> rfl

@[simp] theorem direction?_mapPorts (n : Node) (s : Slot) (f : Port → Port) :
    (n.mapPorts f).direction? s = n.direction? s := by
  cases s <;> rfl

end Node

end LayerNet
