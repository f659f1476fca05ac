import LayerNet.Graph
import LayerNet.Graph.Search

/-!
# Following primary edges

Data flows from the primary output of a node to the primary input of another.  `successors` and
`predecessors` are the two readings of these edges, `reachableFrom` and `reaches` follow them, and
`topologicalOrder` sorts the nodes along them, which fails exactly when they form a cycle.
-/

namespace LayerNet

/-- The nodes of those peers that sit at the given slot, each once. -/
def peerNodes (slot : Slot) (peers : List PortRef) : List NodeId :=
  ((peers.filter fun p => p.slot = slot).map PortRef.node).eraseDups

namespace Graph

/-- The nodes that a node feeds, in the order of its output port. -/
def successors (g : Graph) (id : NodeId) : List NodeId := peerNodes .input (g.peers (.output id))

/-- The nodes that feed a node, in the order of its input port. -/
def predecessors (g : Graph) (id : NodeId) : List NodeId := peerNodes .output (g.peers (.input id))

theorem peers_eq_nil {g : Graph} {p : PortRef} (h : p.node ∉ g.ids) : g.peers p = [] := by
  have hnone : g.node? p.node = none := by
    cases e : g.node? p.node with
    | none => rfl
    | some n =>
      have hkey := Keyed.key_of_get? e
      exact absurd (List.mem_map.2 ⟨n, Keyed.mem_of_get? e, hkey⟩) h
  simp [peers, port?, hnone]

/-- One step along the primary edges. -/
def flow (g : Graph) : Hops where
  next := g.successors
  sources := g.ids
  next_eq_nil id h := by rw [successors, peers_eq_nil h]; rfl

/-- The ids that `start` reaches without entering `stop`, itself included, nearest first. -/
def reachableFrom (g : Graph) (start : NodeId) (stop : Option NodeId) : List NodeId :=
  g.flow.explore [start] stop.toList

/-- Whether `start` reaches `goal`; every node reaches itself. -/
def reaches (g : Graph) (start goal : NodeId) : Bool :=
  g.flow.meets (fun id => id = goal) [start] []

/-- Whether `start` reaches one of the goals. -/
def reachesAny (g : Graph) (start : NodeId) (goals : List NodeId) : Bool :=
  g.flow.meets (fun id => id ∈ goals) [start] []

/-! ## Sorting the nodes -/

/-- A sorting under way. -/
structure Sorting where
  /-- For each id the number of primary edges from nodes that are not yet sorted. -/
  degrees : List (NodeId × Nat)
  /-- The ids without such edges that wait to be sorted. -/
  ready : List NodeId
  /-- The sorted ids. -/
  done : List NodeId

namespace Sorting

/-- Before any node is sorted: the nodes that nothing feeds are ready, in the order of their ids. -/
def start (g : Graph) : Sorting :=
  let fed := g.ids.flatMap g.successors
  let degrees := g.ids.map fun id => (id, fed.count id)
  { degrees, ready := (degrees.filter fun d => d.2 = 0).map Prod.fst, done := [] }

/-- One edge into `id` less; the last one makes it ready. -/
def release (s : Sorting) (id : NodeId) : Sorting :=
  let less := s.degrees.map fun d => if d.1 = id then (id, d.2 - 1) else d
  match s.degrees.lookup id with
  | none | some 0 => s
  | some 1 => { s with degrees := less, ready := s.ready ++ [id] }
  | some _ => { s with degrees := less }

/-- The first ready node sorted and its edges taken off. -/
def step (g : Graph) (s : Sorting) : Sorting :=
  match s.ready with
  | [] => s
  | id :: ready => (g.successors id).foldl release { s with ready, done := s.done ++ [id] }

/-- `turns` steps. -/
def run (g : Graph) : Nat → Sorting → Sorting
  | 0, s => s
  | turns + 1, s => run g turns (s.step g)

end Sorting

/-- The ids in an order in which every primary edge leads forward, if there is one.  Each turn sorts
one node, so as many turns as there are nodes are enough. -/
def topologicalOrder (g : Graph) : Option (List NodeId) :=
  let done := (Sorting.run g g.size (Sorting.start g)).done
  if done.length = g.size then some done else none

/-- Whether the primary edges form a cycle. -/
def hasCycle (g : Graph) : Bool := g.topologicalOrder.isNone

end Graph

end LayerNet
