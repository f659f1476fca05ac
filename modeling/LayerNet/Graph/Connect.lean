import LayerNet.Graph.Subgraph

/-!
# Making and cutting connections

`canConnect` says whether two ports may be joined and, if not, why.  The two ends may be given in
either order.  Primary edges may not form a cycle, and no node may come to belong to the subgraphs
of two special nodes.  Joining two ports that are joined already is allowed and changes nothing.
-/

namespace LayerNet

/-- Why two ports may not be joined. -/
inductive ConnectError where
  | unknownPort (port : PortRef)
  | samePort
  | sameNode
  | sameDirection (direction : Direction)
  /-- Both ports are auxiliary ports. -/
  | auxToAux
  /-- `node` would belong to the subgraphs of `first` and `second`. -/
  | subgraphConflict (node first second : NodeId)
  /-- The primary edges would form a cycle. -/
  | cycle
  deriving DecidableEq, Repr

/-- The wording of a rejection. -/
def ConnectError.message : ConnectError → String
  | .unknownPort port => s!"port {port.text} does not exist"
  | .samePort => "cannot connect a port to itself"
  | .sameNode => "cannot connect two ports of the same node"
  | .sameDirection direction => s!"both ports are {direction.name} ports"
  | .auxToAux => "auxiliary ports of different special nodes cannot be joined"
  | .subgraphConflict node first second =>
    s!"node #{node} would belong to the subgraphs of #{first} and #{second}"
  | .cycle => "connection would create a cycle"

namespace Graph

/-- The rule that a node belongs to one subgraph at most, for a new edge: the first node, by its id,
that would belong to several and to more than before. -/
def subgraphConflict? (g : Graph) (output input : PortRef) : Option ConnectError :=
  if g.nodes.toList.any Node.isSpecial then
    let before := g.membership
    (Wiring.membership ⟨g, some (output, input)⟩).findSome? fun (node, owners) =>
      match owners with
      | first :: second :: _ =>
        if ((before.lookup node).getD []).length < owners.length then
          some (.subgraphConflict node first second)
        else none
      | _ => none
  else none

/-- Whether an output port and an input port may be joined, which are not joined yet. -/
def canJoin (g : Graph) (output input : PortRef) : Except ConnectError Unit :=
  if output.slot.isAux && input.slot.isAux then .error .auxToAux
  else match g.subgraphConflict? output input with
    | some conflict => .error conflict
    | none =>
      if output.slot.isPrimary && input.slot.isPrimary && g.reaches input.node output.node then
        .error .cycle
      else .ok ()

/-- Whether two ports may be joined. -/
def canConnect (g : Graph) (a b : PortRef) : Except ConnectError Unit :=
  match g.direction? a, g.direction? b with
  | none, _ => .error (.unknownPort a)
  | some _, none => .error (.unknownPort b)
  | some da, some db =>
    if a = b then .error .samePort
    else if a.node = b.node then .error .sameNode
    else if da = db then .error (.sameDirection da)
    else if g.isConnected a b then .ok ()
    else if da = .output then g.canJoin a b
    else g.canJoin b a

/-- Two ports joined if they may be, and whether they are joined now. -/
def connect (g : Graph) (a b : PortRef) : Graph × Bool :=
  match g.canConnect a b with
  | .ok () => (if g.isConnected a b then g else g.link a b, true)
  | .error _ => (g, false)

/-- Two ports separated. -/
def disconnect (g : Graph) (a b : PortRef) : Graph := g.unlink a b

end Graph

end LayerNet
