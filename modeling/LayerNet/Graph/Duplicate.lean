import LayerNet.Graph.Connect

/-!
# Copying nodes

Copies are new nodes with the types and parameters of the nodes they copy, moved by an offset.
Among the copies there are the edges that were among the copied nodes; the edges to other nodes are
left out.
-/

namespace LayerNet.Graph

/-- A copy of one node, without edges, if the node exists and was not copied before; `copies` pairs
the copied nodes with their copies. -/
def copyNode (offset : Position) (state : Graph × List (NodeId × NodeId)) (id : NodeId) :
    Graph × List (NodeId × NodeId) :=
  let (g, copies) := state
  if (copies.lookup id).isSome then state
  else match g.node? id with
    | none => state
    | some n =>
      let (g, new) := g.addNode { n with position := n.position.move offset }
      (g, copies ++ [(id, new)])

/-- The edges among copied nodes, carried over to their copies and seen from their outputs. -/
def copiedEdges (g : Graph) (copies : List (NodeId × NodeId)) : List (PortRef × PortRef) :=
  copies.flatMap fun (old, new) =>
    match g.node? old with
    | none => []
    | some n =>
      (n.ports.filter fun (slot, _) => n.direction? slot = some .output).flatMap fun (slot, port) =>
        port.peers.filterMap fun peer =>
          (copies.lookup peer.node).map fun peerNew => (⟨new, slot⟩, ⟨peerNew, peer.slot⟩)

/-- Edges by their outputs, and at one output by their inputs. -/
def edgeLe (a b : PortRef × PortRef) : Bool := if a.1 = b.1 then a.2.le b.2 else a.1.le b.1

/-- The given nodes copied with the edges among them, and the ids of the copies in the order of the
copied nodes.  Ids that do not exist are skipped, and no node is copied twice. -/
def duplicate (g : Graph) (ids : List NodeId) (offset : Position) : Graph × List NodeId :=
  let (g, copies) := ids.foldl (copyNode offset) (g, [])
  let edges := (g.copiedEdges copies).mergeSort edgeLe
  (edges.foldl (fun g (a, b) => (g.connect a b).1) g, copies.map Prod.snd)

end LayerNet.Graph
