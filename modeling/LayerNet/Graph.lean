import LayerNet.Catalog
import LayerNet.Node

/-!
# Graphs of nodes

A graph holds the nodes of a network by their ids.  An edge joins two ports and is kept on both of
them: each lists the other among its peers.  Edges are made by `link` and taken away by `unlink` and
`disconnectAll`, which treat the two sides alike.

New nodes get the id `nextId`, which is above every id handed out so far (the largest id, which has
no successor, aside).  A node never brings edges along: `insertAs` severs its ports.
-/

namespace LayerNet

/-- The nodes of a network, the next free id and the layer types it is built from. -/
structure Graph where
  nodes : Keyed Node.id := Keyed.empty
  nextId : NodeId := 0
  catalog : Catalog := Catalog.builtin

namespace Graph

instance : Inhabited Graph := ⟨{}⟩

/-! ## Looking things up -/

/-- The node with an id. -/
def node? (g : Graph) (id : NodeId) : Option Node := g.nodes.get? id

/-- The ids of the nodes, in increasing order. -/
def ids (g : Graph) : List NodeId := g.nodes.keys

/-- How many nodes there are. -/
def size (g : Graph) : Nat := g.nodes.size

/-- The label of a node, or its number if there is no such node. -/
def label (g : Graph) (id : NodeId) : String :=
  match g.node? id with
  | some n => n.label
  | none => s!"#{id}"

/-- The state of a port. -/
def port? (g : Graph) (p : PortRef) : Option Port := (g.node? p.node).bind fun n => n.port? p.slot

/-- The direction of a port. -/
def direction? (g : Graph) (p : PortRef) : Option Direction :=
  (g.node? p.node).bind fun n => n.direction? p.slot

/-- The peers of a port; a port that does not exist has none. -/
def peers (g : Graph) (p : PortRef) : List PortRef :=
  match g.port? p with
  | some port => port.peers
  | none => []

/-- Whether `b` is among the peers of `a`. -/
def isConnected (g : Graph) (a b : PortRef) : Bool := b ∈ g.peers a

/-! ## Changing nodes and ports -/

/-- One node changed by `f`, which leaves the id alone. -/
def modifyNode (g : Graph) (id : NodeId) (f : Node → Node) (h : ∀ n, (f n).id = n.id) : Graph :=
  { g with
    nodes := g.nodes.map (fun n => if n.id = id then f n else n) fun n => by
      by_cases e : n.id = id <;> simp [e, h] }

/-- One port changed; nothing happens if it does not exist. -/
def modifyPort (g : Graph) (p : PortRef) (f : Port → Port) : Graph :=
  g.modifyNode p.node (fun n => n.modifyPort p.slot f) fun n => n.id_modifyPort p.slot f

/-- A change of one node is seen under its id and nowhere else. -/
theorem node?_modifyNode (g : Graph) (id i : NodeId) (f : Node → Node) (h : ∀ n, (f n).id = n.id) :
    (g.modifyNode id f h).node? i = if i = id then (g.node? i).map f else g.node? i := by
  rw [node?, modifyNode, Keyed.get?_map]
  cases e : g.nodes.get? i with
  | none => simp [node?, e]
  | some n =>
    have hn := Keyed.key_of_get? e
    by_cases hi : i = id
    · subst hi
      simp [node?, e, hn]
    · simp [node?, e, hn, hi]

/-- A change of one port is seen at this port and nowhere else. -/
theorem port?_modifyPort (g : Graph) (p q : PortRef) (f : Port → Port) :
    (g.modifyPort p f).port? q = if p = q then (g.port? q).map f else g.port? q := by
  obtain ⟨pn, ps⟩ := p
  obtain ⟨qn, qs⟩ := q
  rw [port?, modifyPort, node?_modifyNode]
  by_cases h : qn = pn
  · subst h
    cases e : g.node? qn with
    | none => simp [port?, e]
    | some n => simp [port?, e, Node.port?_modifyPort]
  · have hne : ¬(pn = qn ∧ ps = qs) := fun e => h e.1.symm
    simp [port?, h, hne]

/-- Changing a port moves no port. -/
@[simp] theorem direction?_modifyPort (g : Graph) (p q : PortRef) (f : Port → Port) :
    (g.modifyPort p f).direction? q = g.direction? q := by
  rw [direction?, direction?, modifyPort, node?_modifyNode]
  split
  · cases g.node? q.node <;> simp
  · rfl

/-- The edge between two ports, entered on both sides. -/
def link (g : Graph) (a b : PortRef) : Graph :=
  (g.modifyPort a fun p => p.attach b).modifyPort b fun p => p.attach a

/-- The edge between two ports, taken away on both sides. -/
def unlink (g : Graph) (a b : PortRef) : Graph :=
  (g.modifyPort a fun p => p.detach b).modifyPort b fun p => p.detach a

/-- The highlight of a port switched on or off. -/
def setHighlighted (g : Graph) (p : PortRef) (highlighted : Bool) : Graph :=
  g.modifyPort p fun port => { port with highlighted }

/-- All edges of a node taken away, on its ports and on those of its peers. -/
def disconnectAll (g : Graph) (id : NodeId) : Graph :=
  match g.node? id with
  | none => g
  | some n =>
    (n.ports.flatMap fun (_, p) => p.peers).foldl
      (fun g peer => g.modifyPort peer fun p => p.detachNode id)
      (g.modifyNode id (fun n => n.mapPorts Port.severed) fun n => n.id_mapPorts _)

/-- New values for some of the properties of a node. -/
structure NodeEdit where
  layerType : Option String := none
  label : Option String := none
  position : Option Position := none
  stringParams : Option (List String) := none
  floatParams : Option (List Float32) := none

/-- The node with the new values.  Its special kind and its ports stay as they are. -/
def NodeEdit.apply (e : NodeEdit) (n : Node) : Node :=
  { n with
    layerType := e.layerType.getD n.layerType
    label := e.label.getD n.label
    position := e.position.getD n.position
    stringParams := e.stringParams.getD n.stringParams
    floatParams := e.floatParams.getD n.floatParams }

/-- Some properties of a node edited. -/
def editNode (g : Graph) (id : NodeId) (e : NodeEdit) : Graph :=
  g.modifyNode id e.apply fun _ => rfl

/-! ## Adding and removing nodes -/

/-- The graph without a node and its edges, together with the node. -/
def removeNode (g : Graph) (id : NodeId) : Graph × Option Node :=
  let bare := g.disconnectAll id
  ({ bare with nodes := bare.nodes.erase id }, bare.node? id)

/-- A node put into the graph under the given id, without edges and highlights.  A node that had
this id before is removed first. -/
def insertAs (g : Graph) (id : NodeId) (n : Node) : Graph :=
  let free := if (g.node? id).isSome then (g.removeNode id).1 else g
  { free with
    nodes := free.nodes.insert { n.mapPorts (fun _ => {}) with id }
    nextId := if id < maxId then max free.nextId (id + 1) else free.nextId }

/-- A node put into the graph under the next free id. -/
def addNode (g : Graph) (n : Node) : Graph × NodeId := (g.insertAs g.nextId n, g.nextId)

/-- A new node of a layer type; the catalog says whether it is special. -/
def createNode (g : Graph) (layerType : String) (position : Position) : Graph × NodeId :=
  g.addNode (Node.new g.nextId layerType (g.catalog.specialKind layerType) position)

end Graph

end LayerNet
