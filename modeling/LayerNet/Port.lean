import LayerNet.Keyed

/-!
# Ports

A node meets its neighbours at ports.  Every node has a primary input and a primary output;
special nodes have auxiliary ports besides, numbered from zero.  A port remembers its peers in the
order in which they were attached and never twice.
-/

namespace LayerNet

/-- Nodes are known by numbers that fit into 64 bits. -/
abbrev NodeId := Nat

/-- The largest node id. -/
def maxId : NodeId := Nat.pow 2 64 - 1

/-- A set of ids, read in increasing order. -/
abbrev IdSet := @Keyed NodeId NodeId _ id

/-- Whether data flows into a port or out of it. -/
inductive Direction where
  | input
  | output
  deriving DecidableEq, Repr, Inhabited

/-- The direction that a peer has to have. -/
def Direction.opposite : Direction → Direction
  | .input => .output
  | .output => .input

/-- The name of a direction. -/
def Direction.name : Direction → String
  | .input => "Input"
  | .output => "Output"

/-- Which port of a node. -/
inductive Slot where
  /-- The primary input. -/
  | input
  /-- The primary output. -/
  | output
  /-- The auxiliary port with this number. -/
  | aux (index : Nat)
  deriving DecidableEq, Repr, Inhabited

namespace Slot

/-- Whether it is the primary input or the primary output. -/
def isPrimary : Slot → Bool
  | .aux _ => false
  | _ => true

/-- Whether it is an auxiliary port. -/
def isAux : Slot → Bool
  | .aux _ => true
  | _ => false

/-- Place of the slot among the slots of its node. -/
def rank : Slot → Nat
  | .input => 0
  | .output => 1
  | .aux index => index + 2

/-- The slot with its place, as it is named in a message about a missing port. -/
def text : Slot → String
  | .input => "Input"
  | .output => "Output"
  | .aux index => s!"Aux({index})"

end Slot

/-- A port of the node with the id `node`. -/
structure PortRef where
  node : NodeId
  slot : Slot
  deriving DecidableEq, Repr, Inhabited

namespace PortRef

/-- The primary input of a node. -/
def input (node : NodeId) : PortRef := ⟨node, .input⟩

/-- The primary output of a node. -/
def output (node : NodeId) : PortRef := ⟨node, .output⟩

/-- An auxiliary port of a node. -/
def aux (node : NodeId) (index : Nat) : PortRef := ⟨node, .aux index⟩

/-- By node, and within a node by slot. -/
def le (a b : PortRef) : Bool :=
  a.node < b.node || (a.node == b.node && a.slot.rank ≤ b.slot.rank)

/-- How a port is written: node, point, slot. -/
def text (p : PortRef) : String :=
  match p.slot with
  | .input => s!"#{p.node}.in"
  | .output => s!"#{p.node}.out"
  | .aux index => s!"#{p.node}.aux{index}"

end PortRef

/-- The state of a port: its peers, and whether it is highlighted. -/
structure Port where
  /-- The ports at the other ends of the edges, in the order of their attachment. -/
  peers : List PortRef := []
  highlighted : Bool := false
  deriving DecidableEq, Repr, Inhabited

namespace Port

/-- Whether the port has an edge. -/
def isConnected (p : Port) : Bool := !p.peers.isEmpty

/-- `peer` added at the end, unless it is there already. -/
def attach (p : Port) (peer : PortRef) : Port :=
  if peer ∈ p.peers then p else { p with peers := p.peers ++ [peer] }

/-- `peer` taken away. -/
def detach (p : Port) (peer : PortRef) : Port :=
  { p with peers := p.peers.filter fun q => q ≠ peer }

/-- All peers at one node taken away. -/
def detachNode (p : Port) (node : NodeId) : Port :=
  { p with peers := p.peers.filter fun q => q.node ≠ node }

/-- The port without its edges. -/
def severed (p : Port) : Port := { p with peers := [] }

end Port

end LayerNet
