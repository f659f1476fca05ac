import LayerNet.Graph.Subgraph
import LayerNet.Report

/-!
# The structure of a network

A network that can be compiled has an input and an output, leads from every input to an output, has
several inputs only at merging nodes, and its special nodes own subgraphs that are closed and do not
overlap.  `Graph.findings` lists what stands against this, part by part.
-/

namespace LayerNet

/-- What can be wrong with the structure of a network. -/
inductive Finding where
  /-- A node has no edge. -/
  | disconnected (id : NodeId) (label : String)
  | noInputs
  | noOutputs
  /-- An input reaches no output. -/
  | deadEnd (id : NodeId) (label : String)
  /-- A node with several inputs has a type that does not merge them. -/
  | unmerged (id : NodeId) (label : String) (inputs : Nat) (layerType : String)
  /-- A node belongs to the subgraphs of several special nodes. -/
  | shared (id : NodeId) (label : String) (owners : List String)
  /-- A node of a subgraph has no input. -/
  | memberWithoutInput (id : NodeId) (label owner : String)
  /-- A node of a subgraph has no output. -/
  | memberWithoutOutput (id : NodeId) (label owner : String)
  /-- A node of a subgraph is joined to a node outside it. -/
  | leak (id : NodeId) (label owner other : String)
  deriving DecidableEq, Repr

namespace Finding

/-- The wording of a finding. -/
def message : Finding → String
  | disconnected _ label => s!"Node '{label}' is disconnected"
  | noInputs => "Network has no input nodes"
  | noOutputs => "Network has no output nodes"
  | deadEnd _ label => s!"Input node '{label}' has no path to any output"
  | unmerged _ label inputs layerType =>
    s!"Node '{label}' receives {inputs} inputs but type '{layerType}' does not merge branches"
  | shared _ label owners =>
    let names := Text.join ", " (owners.map fun owner => s!"'{owner}'")
    s!"Node '{label}' belongs to several special subgraphs: {names}"
  | memberWithoutInput _ label owner =>
    s!"Node '{label}' inside the subgraph of '{owner}' has no input"
  | memberWithoutOutput _ label owner =>
    s!"Node '{label}' inside the subgraph of '{owner}' has no output"
  | leak _ label owner other =>
    s!"Node '{label}' inside the subgraph of '{owner}' is connected to '{other}' outside it"

/-- The node that a finding is about. -/
def node? : Finding → Option NodeId
  | noInputs | noOutputs => none
  | disconnected id _ | deadEnd id _ | unmerged id _ _ _ | shared id _ _
  | memberWithoutInput id _ _ | memberWithoutOutput id _ _ | leak id _ _ _ => some id

/-- Every finding is an error. -/
def diagnostic (f : Finding) : Diagnostic := .error f.message f.node?

end Finding

namespace Graph

/-- Nodes without edges. -/
def disconnectedNodes (g : Graph) : List Finding :=
  (g.nodes.toList.filter fun n => !n.hasConnections).map fun n => .disconnected n.id n.label

/-- Missing inputs or outputs, and inputs that lead to no output. -/
def endFindings (g : Graph) : List Finding :=
  let inputs := g.realInputs
  let outputs := g.realOutputs
  (if inputs.isEmpty then [.noInputs] else []) ++
    (if outputs.isEmpty then [.noOutputs] else []) ++
    (inputs.filter fun id => !g.reachesAny id outputs).map fun id => .deadEnd id (g.label id)

/-- Nodes with several inputs that do not merge them. -/
def unmergedNodes (g : Graph) : List Finding :=
  (g.nodes.toList.filter fun n => 1 < n.input.peers.length && !g.catalog.isMerge n.layerType).map
    fun n => .unmerged n.id n.label n.input.peers.length n.layerType

/-- Nodes of several subgraphs. -/
def sharedNodes (g : Graph) : List Finding :=
  (g.membership.filter fun m => 1 < m.2.length).map fun (id, owners) =>
    .shared id (g.label id) (owners.map g.label)

/-- Whether a peer of a node in the subgraph of `special` is inside: an auxiliary port of the
special node, or a port of a node of the subgraph. -/
def isInside (special : NodeId) (members : List NodeId) (peer : PortRef) : Bool :=
  if peer.node = special then peer.slot.isAux else peer.node ∈ members

/-- What is wrong with one node in the subgraph of `special`. -/
def memberFindings (g : Graph) (special : Node) (members : List NodeId) (id : NodeId) :
    List Finding :=
  match g.node? id with
  | none => []
  | some n =>
    let outside := ((n.input.peers ++ n.output.peers).filter fun peer =>
      !isInside special.id members peer).map PortRef.node
    (if n.input.isConnected then [] else [.memberWithoutInput id n.label special.label]) ++
      (if n.output.isConnected then [] else [.memberWithoutOutput id n.label special.label]) ++
      (Keyed.ofList outside : IdSet).toList.map fun other =>
        .leak id n.label special.label (g.label other)

/-- What is wrong with the subgraphs of the special nodes. -/
def subgraphFindings (g : Graph) : List Finding :=
  (g.nodes.toList.filter Node.isSpecial).flatMap fun special =>
    let members := g.subgraph special.id
    members.flatMap fun id => g.memberFindings special members id

/-- Everything that is wrong with the structure of the network. -/
def findings (g : Graph) : List Finding :=
  g.disconnectedNodes ++ g.endFindings ++ g.unmergedNodes ++ g.sharedNodes ++ g.subgraphFindings

/-- The report on the structure of the network. -/
def validate (g : Graph) : Report := ⟨g.findings.map Finding.diagnostic⟩

end Graph

end LayerNet
