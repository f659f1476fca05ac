import LayerNet.Graph.Connect
import LayerNet.TrainSettings

/-!
# Network documents

A document is a network as it is stored: the nodes in the order of their ids, and the connections as
pairs of ports, whose nodes are given by their places in the list of nodes.  Every edge is stored
once, seen from its output.

A graph is rebuilt from a document by connecting what the document lists, one connection after the
other, so a document never yields a graph that could not have been edited by hand.
-/

namespace LayerNet

namespace Document

/-- Who wrote a document, when and for what. -/
structure Metadata where
  created : String
  modified : String
  creator : String
  description : String := ""
  deriving DecidableEq, Repr, Inhabited

/-- A stored node. -/
structure NodeRecord where
  id : NodeId
  layerType : String
  label : String
  position : Position
  stringParams : List String := []
  floatParams : List Float32 := []
  deriving DecidableEq

/-- One end of a stored connection. -/
structure Endpoint where
  /-- The place of the node in the list of nodes. -/
  node : Nat
  slot : Slot
  deriving DecidableEq, Repr

/-- A stored connection. -/
structure Connection where
  source : Endpoint
  target : Endpoint
  deriving DecidableEq, Repr

/-- Why a document is not read, or no graph can be rebuilt from it. -/
inductive Error where
  /-- A file cannot be read or written. -/
  | file
  /-- A text is not the JSON of a document. -/
  | json
  | missingNode (connection node : Nat)
  | missingPort (connection node : Nat) (slot : Slot)
  | rejected (connection : Nat) (source target : PortRef) (reason : ConnectError)
  | duplicateId (id : NodeId)
  | invalidId (id : NodeId)
  deriving DecidableEq, Repr

/-- The wording of a failure. -/
def Error.message : Error → String
  | file => "IO error"
  | json => "JSON error"
  | missingNode connection node =>
    s!"Connection {connection} references missing node index {node}"
  | missingPort connection node slot =>
    s!"Connection {connection} references missing port {slot.text} on node index {node}"
  | rejected connection source target reason =>
    s!"Connection {connection} ({source.text} -> {target.text}) was rejected: {reason.message}"
  | duplicateId id => s!"Node id {id} appears more than once"
  | invalidId id => s!"Node id {id} is out of range"

end Document

/-- A network as it is stored. -/
structure Document where
  version : String
  metadata : Document.Metadata
  nodes : List Document.NodeRecord
  connections : List Document.Connection
  trainSettings : Option TrainSettings := none
  deriving DecidableEq

namespace Document

/-! ## From a graph -/

/-- The version of the format. -/
def currentVersion : String := "1.0"

/-- The program that writes documents. -/
def currentCreator : String := "layerweave 0.1"

/-- The metadata of a document that is made at the time `now`. -/
def Metadata.new (now : String) : Metadata := ⟨now, now, currentCreator, "Neural network topology"⟩

/-- A node as it is stored. -/
def NodeRecord.ofNode (n : Node) : NodeRecord :=
  ⟨n.id, n.layerType, n.label, n.position, n.stringParams, n.floatParams⟩

/-- The edges at the outputs of a node as they are stored; `ids` are the nodes of the document. -/
def connectionsOf (ids : List NodeId) (n : Node) : List Connection :=
  (n.ports.filter fun (slot, _) => n.direction? slot = some .output).flatMap fun (slot, port) =>
    port.peers.filterMap fun peer =>
      match ids.idxOf? n.id, ids.idxOf? peer.node with
      | some source, some target => some ⟨⟨source, slot⟩, ⟨target, peer.slot⟩⟩
      | _, _ => none

/-- The document of a graph. -/
def ofGraph (g : Graph) (trainSettings : Option TrainSettings) (now : String) : Document where
  version := currentVersion
  metadata := .new now
  nodes := g.nodes.toList.map NodeRecord.ofNode
  connections := g.nodes.toList.flatMap (connectionsOf g.ids)
  trainSettings

/-! ## To a graph -/

/-- The node of a record; the catalog says whether it is special. -/
def NodeRecord.node (catalog : Catalog) (r : NodeRecord) : Node :=
  { Node.new r.id r.layerType (catalog.specialKind r.layerType) r.position with
    label := r.label
    stringParams := r.stringParams
    floatParams := r.floatParams }

/-- The graph with the node of one more record; `seen` are the ids of the earlier ones. -/
def addRecords (g : Graph) (seen : List NodeId) : List NodeRecord → Except Error Graph
  | [] => .ok g
  | r :: rest =>
    if r.id = maxId then .error (.invalidId r.id)
    else if r.id ∈ seen then .error (.duplicateId r.id)
    else addRecords (g.insertAs r.id (r.node g.catalog)) (r.id :: seen) rest

/-- The port at one end of a connection. -/
def resolve (d : Document) (g : Graph) (connection : Nat) (e : Endpoint) : Except Error PortRef :=
  match d.nodes[e.node]? with
  | none => .error (.missingNode connection e.node)
  | some r =>
    if (g.port? ⟨r.id, e.slot⟩).isSome then .ok ⟨r.id, e.slot⟩
    else .error (.missingPort connection e.node e.slot)

/-- The graph with one connection more. -/
def addConnection (d : Document) (g : Graph) (index : Nat) (c : Connection) :
    Except Error Graph := do
  let source ← d.resolve g index c.source
  let target ← d.resolve g index c.target
  match g.canConnect source target with
  | .error reason => .error (.rejected index source target reason)
  | .ok () => .ok (g.connect source target).1

/-- The graph with the connections from the place `index` on. -/
def addConnections (d : Document) (g : Graph) (index : Nat) :
    List Connection → Except Error Graph
  | [] => .ok g
  | c :: rest => do
    let g ← d.addConnection g index c
    addConnections d g (index + 1) rest

/-- The graph that the document describes. -/
def toGraph (d : Document) : Except Error Graph := do
  let g ← addRecords {} [] d.nodes
  d.addConnections g 0 d.connections

/-! ## JSON -/

/-- Writes a slot: a name, or an object with the number of an auxiliary port. -/
def slotJson : Slot → Json
  | .input => Json.ofString "Input"
  | .output => Json.ofString "Output"
  | .aux index => Json.record [("Aux", Json.ofNat index)]

/-- Reads a slot. -/
def slot? (value : Json) : Option Slot :=
  match value.tagged? with
  | some ("Input", .null) => some .input
  | some ("Output", .null) => some .output
  | some ("Aux", index) => index.word64?.map .aux
  | _ => none

/-- Writes metadata. -/
def Metadata.toJson (m : Metadata) : Json :=
  Json.record [("created", Json.ofString m.created), ("modified", Json.ofString m.modified),
    ("creator", Json.ofString m.creator), ("description", Json.ofString m.description)]

/-- Reads metadata. -/
def Metadata.ofJson? (value : Json) : Option Metadata := do
  let fields ← value.fields? ["created", "modified", "creator", "description"]
  return {
    created := ← fields.required? "created" Json.string?
    modified := ← fields.required? "modified" Json.string?
    creator := ← fields.required? "creator" Json.string?
    description := ← fields.default? "description" Json.string? "" }

/-- Reads a position: two numbers. -/
def position? : Json → Option Position
  | .array [x, y] => do
    let x ← x.single?
    let y ← y.single?
    return ⟨x, y⟩
  | _ => none

/-- Writes a node. -/
def NodeRecord.toJson (r : NodeRecord) : Json :=
  Json.record
    [("id", Json.ofNat r.id), ("layer_type", Json.ofString r.layerType),
      ("label", Json.ofString r.label),
      ("position", .array [Single.toJson r.position.x, Single.toJson r.position.y]),
      ("string_params", Json.ofList Json.ofString r.stringParams),
      ("float_params", Json.ofList Single.toJson r.floatParams)]

/-- Reads a node. -/
def NodeRecord.ofJson? (value : Json) : Option NodeRecord := do
  let fields ← value.fields?
    ["id", "layer_type", "label", "position", "string_params", "float_params"]
  return {
    id := ← fields.required? "id" Json.word64?
    layerType := ← fields.required? "layer_type" Json.string?
    label := ← fields.required? "label" Json.string?
    position := ← fields.required? "position" position?
    stringParams := ← fields.default? "string_params" (Json.list? Json.string?) []
    floatParams := ← fields.default? "float_params" (Json.list? Json.single?) [] }

/-- Writes an end of a connection. -/
def Endpoint.toJson (e : Endpoint) : Json :=
  Json.record [("node", Json.ofNat e.node), ("slot", slotJson e.slot)]

/-- Reads an end of a connection. -/
def Endpoint.ofJson? (value : Json) : Option Endpoint := do
  let fields ← value.fields? ["node", "slot"]
  return {
    node := ← fields.required? "node" Json.word64?
    slot := ← fields.required? "slot" slot? }

/-- Writes a connection. -/
def Connection.toJson (c : Connection) : Json :=
  Json.record [("from", c.source.toJson), ("to", c.target.toJson)]

/-- Reads a connection. -/
def Connection.ofJson? (value : Json) : Option Connection := do
  let fields ← value.fields? ["from", "to"]
  return {
    source := ← fields.required? "from" Endpoint.ofJson?
    target := ← fields.required? "to" Endpoint.ofJson? }

/-- Writes a document.  Training settings are left out if there are none. -/
def toJson (d : Document) : Json :=
  Json.record
    ([("version", Json.ofString d.version), ("metadata", d.metadata.toJson),
      ("nodes", Json.ofList NodeRecord.toJson d.nodes),
      ("connections", Json.ofList Connection.toJson d.connections)] ++
      match d.trainSettings with
      | none => []
      | some settings => [("train_settings", settings.toJson)])

/-- Reads a document. -/
def ofJson? (value : Json) : Option Document := do
  let fields ← value.fields? ["version", "metadata", "nodes", "connections", "train_settings"]
  return {
    version := ← fields.required? "version" Json.string?
    metadata := ← fields.required? "metadata" Metadata.ofJson?
    nodes := ← fields.required? "nodes" (Json.list? NodeRecord.ofJson?)
    connections := ← fields.required? "connections" (Json.list? Connection.ofJson?)
    trainSettings :=
      ← fields.default? "train_settings" (Json.nullable? TrainSettings.ofJson?) none }

/-- The text of a document. -/
def text (d : Document) : String := d.toJson.pretty

/-- Reads the text of a document. -/
def parse? : String → Option Document := Json.decode? ofJson?

end Document

end LayerNet
