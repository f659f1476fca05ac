import LayerNet.Compile.Convergence
import LayerNet.Compile.Error
import LayerNet.CompilerConfig
import LayerNet.Graph.Subgraph
import LayerNet.Layer

/-!
# Expanding heads into layers

Expansion follows the primary edges from a list of heads.  A single head becomes a layer, followed
by the expansion of what it feeds.  Several heads are grouped where they first meet: their branches
up to that point become a parallel layer, the point becomes a head in their place, and so on until
no heads meet any more.

No node is placed twice.  The ids that are placed so far are the state of an `Expansion`, and an id
that comes up again is refused.  Hence expansions are nested at most as deeply as there are nodes:
each nested one has a node more behind it.  `Expander` is what an expansion needs from those nested
in it, `Expander.deeper` builds one level on another, and `Expander.exhausted`, the level at which
all nodes are placed, is the end of the recursion.
-/

namespace LayerNet

/-- A computation that places nodes and may fail. -/
abbrev Expansion := StateT (List NodeId) (Except CompileError)

namespace Expansion

/-- The end of an expansion: there is no tree form. -/
def refuse {α : Type} (node : NodeId) (obstacle : Obstacle) : Expansion α :=
  throw (.unsupported node obstacle)

/-- Places a node, which fails if it is placed already. -/
def place (id : NodeId) (obstacle : Obstacle) : Expansion Unit := do
  if id ∈ (← get) then refuse id obstacle else modify (id :: ·)

end Expansion

/-- A head of a branch, with the group that ends at it. -/
structure Head where
  node : NodeId
  group : Option Layer := none

/-- One level of expansion: the layers from a node on, and the layers that follow a group which ends
at a node.  Both end before the second node. -/
structure Expander where
  node : NodeId → Option NodeId → Expansion (List Layer)
  afterGroup : NodeId → Option NodeId → Expansion (List Layer)

open Expansion

/-- A branch made of steps: a single step stands for itself. -/
def asBranch : List Layer → Layer
  | [step] => step
  | steps => .sequence steps

/-- The group of the branches that meet at `point`.  All edges into the point have to arrive as
branches; an edge from an auxiliary port counts as one. -/
def parallelGroup (g : Graph) (config : CompilerConfig) (point : NodeId) (branches : List Layer) :
    Expansion Layer := do
  let node := g.node? point
  let fromAux := (g.peers (.input point)).any fun p => p.slot.isAux
  let expected := (g.predecessors point).length + if fromAux then 1 else 0
  if branches.length ≠ expected then refuse point (.partialGroup branches.length expected)
  else
    let declared := node.bind fun n => g.catalog.reductionFor n.layerType n.stringParams
    let merges := node.any fun n => g.catalog.isMerge n.layerType
    return .parallel (declared.getD config.defaultReduction)
      (if merges then some point else none) branches

namespace Expander

variable (g : Graph) (config : CompilerConfig) (below : Expander)

/-- The layers from a head up to `stop`, its group first. -/
def chain (head : Head) (stop : Option NodeId) : Expansion (List Layer) :=
  match head.group with
  | some group => return group :: (← below.afterGroup head.node stop)
  | none => below.node head.node stop

/-! ## Grouping heads -/

/-- The branches of the heads at the given places, up to `point`. -/
def branchesTo (pending : List Head) (point : NodeId) : List Nat → Expansion (List Layer)
  | [] => return []
  | i :: rest =>
    match pending[i]? with
    | none => branchesTo pending point rest
    | some head => do
      let branch := asBranch (← below.chain head (some point))
      return branch :: (← branchesTo pending point rest)

/-- The groups at the given points, each with the place of its first head; `taken` are the places of
the heads that belong to groups.  A head that belongs to a group cannot belong to a second one. -/
def groupsAt (pending : List Head) :
    List MeetingPoint → List Nat → Expansion (List (Nat × Head) × List Nat)
  | [], taken => return ([], taken)
  | meeting :: rest, taken => do
    match meeting.heads.find? fun i => i ∈ taken with
    | some i =>
      let label := ((pending[i]?).map fun head => g.label head.node).getD ""
      refuse meeting.point (.feedsAnotherMerge label)
    | none =>
      let branches ← below.branchesTo pending meeting.point meeting.heads
      let group ← parallelGroup g config meeting.point branches
      let (groups, taken) ← groupsAt pending rest (meeting.heads ++ taken)
      return ((meeting.heads.headD 0, ⟨meeting.point, some group⟩) :: groups, taken)

/-- The heads after a round: each group stands at the place of its first head, and the heads of the
groups are gone. -/
def regroup (pending : List Head) (groups : List (Nat × Head)) (taken : List Nat) : List Head :=
  pending.zipIdx.flatMap fun (head, i) =>
    ((groups.filter fun group => group.1 = i).map Prod.snd) ++ if i ∈ taken then [] else [head]

/-- Rounds of grouping, until no heads meet.  A round leaves fewer heads than it finds, so there are
at most as many rounds as heads. -/
def rounds (stop : Option NodeId) : Nat → List Head → Expansion (List Head)
  | 0, pending => return pending
  | more + 1, pending => do
    match g.firstMeetings (pending.map Head.node) stop with
    | [] => return pending
    | meetings =>
      let (groups, taken) ← below.groupsAt g config pending meetings []
      rounds stop more (regroup pending groups taken)

/-- The chains of layers from the given heads, grouped where they meet. -/
def converge (heads : List NodeId) (stop : Option NodeId) : Expansion (List (List Layer)) := do
  let pending ← below.rounds g config stop heads.length (heads.map fun node => ⟨node, none⟩)
  pending.mapM fun head => below.chain head stop

/-- Several heads as one list of layers.  Chains that stay apart become the branches of a group with
the default reduction; on the way to a merge they may not. -/
def mergeHeads (heads : List NodeId) (stop : Option NodeId) : Expansion (List Layer) := do
  let chains := (← below.converge g config heads stop).filter fun chain => !chain.isEmpty
  match chains with
  | [] => return []
  | [chain] => return chain
  | chains =>
    match stop with
    | some merge => refuse merge .splitsBefore
    | none => return [.parallel config.defaultReduction none (chains.map asBranch)]

/-- The layers from the given heads up to `stop`. -/
def heads (heads : List NodeId) (stop : Option NodeId) : Expansion (List Layer) :=
  match heads with
  | [] => return []
  | [head] => below.node head stop
  | heads => below.mergeHeads g config heads stop

/-! ## From a node on -/

/-- What follows a node.  A branch has to end where it enters its merge, so a node that feeds the
merge feeds nothing else. -/
def successors (id : NodeId) (stop : Option NodeId) : Expansion (List Layer) := do
  let all := g.successors id
  let next := all.filter fun n => some n ≠ stop
  match stop with
  | some merge =>
    if next ≠ [] ∧ next.length < all.length then refuse merge (.continuesPast (g.label id))
    else below.heads g config next stop
  | none => below.heads g config next stop

/-- The wires of the auxiliary ports of a node to primary ports, in the order of the ports. -/
def auxLinks (n : Node) : List (Direction × AuxLink) :=
  ((auxLayout n.special).zip n.aux).zipIdx.flatMap fun ((spec, port), index) =>
    (port.peers.filter fun peer => peer.slot.isPrimary).map fun peer =>
      (spec.direction, ⟨index, spec.role, peer.node⟩)

/-- The subgraph of a special node and the wiring of its auxiliary ports.  The heads are the nodes
that the auxiliary outputs feed; those that never meet stay separate. -/
def subgraph (n : Node) : Expansion (List Layer × List AuxLink) := do
  let links := auxLinks n
  let heads := ((links.filter fun link => link.1 = .output).map fun link => link.2.node).eraseDups
  let inner ←
    if 1 < heads.length then do
      let chains ← below.converge g config heads none
      pure chains.flatten
    else below.heads g config heads none
  return (inner, links.map Prod.snd)

/-- The layer of a node with everything that follows it up to `stop`. -/
def expandNode (id : NodeId) (stop : Option NodeId) : Expansion (List Layer) := do
  if some id = stop then return []
  else match g.node? id with
    | none => return []
    | some n =>
      place id .metApart
      let inputs := (g.predecessors id).length
      if 1 < inputs then refuse id (.ungroupedInputs inputs)
      else
        let (inner, links) ← if n.isSpecial then below.subgraph g config n else pure ([], [])
        let children ← below.successors g config id stop
        return [.node ⟨n.id, n.layerType, n.floatParams, n.stringParams⟩ inner links children]

/-- What follows a group that ends at `merge`.  A merging node is part of the group, so only what it
feeds follows; any other node follows as a layer. -/
def expandAfterGroup (merge : NodeId) (stop : Option NodeId) : Expansion (List Layer) := do
  if some merge = stop then return []
  else match g.node? merge with
    | none => return []
    | some n =>
      if g.catalog.isMerge n.layerType then
        place merge .closesTwice
        below.successors g config merge stop
      else below.expandNode g config merge stop

/-- One more level of expansion. -/
def deeper : Expander := ⟨below.expandNode g config, below.expandAfterGroup g config⟩

/-- The level at which every node is placed already. -/
def exhausted : Expander where
  node id stop :=
    if some id = stop ∨ (g.node? id).isNone then return [] else refuse id .metApart
  afterGroup merge stop :=
    if some merge = stop then return []
    else match g.node? merge with
      | none => return []
      | some n =>
        refuse merge (if g.catalog.isMerge n.layerType then .closesTwice else .metApart)

/-- `levels` levels of expansion. -/
def levels : Nat → Expander
  | 0 => exhausted g
  | n + 1 => (levels n).deeper g config

end Expander

/-- The expander of a graph, with a level for each node. -/
def Graph.expander (g : Graph) (config : CompilerConfig) : Expander :=
  Expander.levels g config g.size

end LayerNet
