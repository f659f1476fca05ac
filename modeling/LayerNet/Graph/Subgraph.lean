import LayerNet.Graph.Traversal

/-!
# Subgraphs of special nodes

A special node captures whatever its auxiliary ports lead to: the nodes behind its auxiliary
outputs, following primary edges forward, and the nodes before its auxiliary inputs, following them
backward.  The search never passes through the special node itself.

`Wiring` is a graph with at most one more edge on trial, so the same definitions tell what a node
captures now and what it would capture after a connection.
-/

namespace LayerNet

/-- The edges of a graph and possibly one more. -/
structure Wiring where
  graph : Graph
  extra : Option (PortRef × PortRef) := none

namespace Wiring

/-- The peers of a port, the other end of the extra edge included. -/
def peers (w : Wiring) (p : PortRef) : List PortRef :=
  let known := w.graph.peers p
  match w.extra with
  | none => known
  | some (a, b) =>
    if a = p ∧ b ∉ known then known ++ [b]
    else if b = p ∧ a ∉ known then known ++ [a]
    else known

/-- The ids at which an edge may begin or end. -/
def ids (w : Wiring) : List NodeId :=
  match w.extra with
  | none => w.graph.ids
  | some (a, b) => a.node :: b.node :: w.graph.ids

theorem peers_eq_nil {w : Wiring} {p : PortRef} (h : p.node ∉ w.ids) : w.peers p = [] := by
  cases e : w.extra with
  | none =>
    simp only [ids, e] at h
    simp [peers, e, Graph.peers_eq_nil h]
  | some edge =>
    obtain ⟨a, b⟩ := edge
    simp only [ids, e, List.mem_cons, not_or] at h
    have ha : a ≠ p := fun e => h.1 (e ▸ rfl)
    have hb : b ≠ p := fun e => h.2.1 (e ▸ rfl)
    simp [peers, e, Graph.peers_eq_nil h.2.2, ha, hb]

/-- One step forward along the primary edges. -/
def forward (w : Wiring) : Hops where
  next id := peerNodes .input (w.peers (.output id))
  sources := w.ids
  next_eq_nil id h := by rw [peers_eq_nil h]; rfl

/-- One step backward along the primary edges. -/
def backward (w : Wiring) : Hops where
  next id := peerNodes .output (w.peers (.input id))
  sources := w.ids
  next_eq_nil id h := by rw [peers_eq_nil h]; rfl

/-- The auxiliary ports of a node that have the given direction. -/
def auxPorts (w : Wiring) (id : NodeId) (direction : Direction) : List PortRef :=
  match w.graph.node? id with
  | none => []
  | some n =>
    ((auxLayout n.special).zipIdx.filter fun (port, _) => port.direction = direction).map
      fun (_, index) => .aux id index

/-- The nodes whose primary ports are joined to the auxiliary ports of one direction. -/
def auxPeers (w : Wiring) (id : NodeId) (direction : Direction) : List NodeId :=
  ((w.auxPorts id direction).flatMap fun p => (w.peers p).filter fun q => q.slot.isPrimary).map
    PortRef.node

/-- The nodes that a special node captures, in the order of their ids. -/
def subgraph (w : Wiring) (special : NodeId) : List NodeId :=
  let behind := w.forward.explore (w.auxPeers special .output) [special]
  let before := w.backward.explore (w.auxPeers special .input) [special]
  w.graph.ids.filter fun id => id ∈ behind ∨ id ∈ before

/-- The special nodes with what they capture, in the order of their ids. -/
def subgraphs (w : Wiring) : List (NodeId × List NodeId) :=
  (w.graph.nodes.toList.filter Node.isSpecial).map fun n => (n.id, w.subgraph n.id)

/-- The captured nodes with the special nodes that capture them. -/
def membership (w : Wiring) : List (NodeId × List NodeId) :=
  let subgraphs := w.subgraphs
  (w.graph.ids.map fun id => (id, (subgraphs.filter fun s => id ∈ s.2).map Prod.fst)).filter
    fun m => !m.2.isEmpty

/-- The special nodes that capture a node. -/
def owners (w : Wiring) (id : NodeId) : List NodeId := (w.membership.lookup id).getD []

end Wiring

namespace Graph

/-- The edges of the graph as they are. -/
def wiring (g : Graph) : Wiring := ⟨g, none⟩

/-- The nodes that a special node captures. -/
def subgraph (g : Graph) (special : NodeId) : List NodeId := g.wiring.subgraph special

/-- The captured nodes with the special nodes that capture them. -/
def membership (g : Graph) : List (NodeId × List NodeId) := g.wiring.membership

/-- The special nodes that capture a node. -/
def owners (g : Graph) (id : NodeId) : List NodeId := g.wiring.owners id

/-- Whether a special node captures the node. -/
def isCaptured (g : Graph) (id : NodeId) : Bool := !(g.owners id).isEmpty

/-- The nodes at which the network takes its inputs: joined to something, fed by nothing and not
captured. -/
def realInputs (g : Graph) : List NodeId :=
  let captured := g.membership.map Prod.fst
  (g.nodes.toList.filter fun n =>
    n.hasConnections && !n.input.isConnected && n.id ∉ captured).map Node.id

/-- The nodes at which the network gives its outputs: joined to something, feeding nothing and not
captured. -/
def realOutputs (g : Graph) : List NodeId :=
  let captured := g.membership.map Prod.fst
  (g.nodes.toList.filter fun n =>
    n.hasConnections && !n.output.isConnected && n.id ∉ captured).map Node.id

end Graph

end LayerNet
