import LayerNet.Proofs.Numbering
import LayerNet.Proofs.Ports

/-!
# Removing nodes

A node is removed together with its edges.  These are found from the node itself: its ports are
emptied, and each port that they had listed drops whatever it lists at the node.  In a well-formed
graph this reaches every port that mentions the node, so what is left is the subgraph that the
other nodes span (`Leaves`):

* `WellFormed.leaves_removeNode` — one removal takes the entries at one node out of all lists and
  leaves everything else as it was;
* `WellFormed.leaves_removeAll` — hence so does any number of removals;
* `Leaves.unique` — this says all about the graph that is left, so the order of removals is of no
  importance.
-/

namespace LayerNet

/-- A port without its peers at the given nodes. -/
def Port.without (ids : List NodeId) (port : Port) : Port :=
  { port with peers := port.peers.filter fun q => q.node ∉ ids }

theorem Port.without_singleton (id : NodeId) :
    Port.without [id] = fun port => port.detachNode id := by
  funext port
  simp [without, detachNode]

theorem Port.without_without (ids ids' : List NodeId) (port : Port) :
    (port.without ids).without ids' = port.without (ids ++ ids') := by
  simp only [without, List.filter_filter, List.mem_append, not_or, Bool.decide_and, Bool.and_comm]

theorem Port.without_congr {ids ids' : List NodeId} (h : ∀ id, id ∈ ids ↔ id ∈ ids') :
    Port.without ids = Port.without ids' := by
  funext port
  simp only [without, h]

theorem Node.hasConnections_severed (n : Node) :
    (n.mapPorts Port.severed).hasConnections = false := by
  rw [hasConnections, List.any_eq_false]
  rintro ⟨slot, port⟩ hport
  rw [mem_ports, port?_mapPorts, Option.map_eq_some_iff] at hport
  obtain ⟨old, -, rfl⟩ := hport
  exact Bool.false_ne_true

namespace Graph

variable {g g' g'' : Graph} {id : NodeId} {ids ids' : List NodeId} {p q : PortRef}

/-! ## Taking the edges of a node away -/

theorem node?_bare_disconnectAll (g : Graph) (id i : NodeId) :
    ((g.disconnectAll id).node? i).map Node.bare = (g.node? i).map Node.bare := by
  refine disconnectAll_invariant (fun g => (g.node? i).map Node.bare) id
    (fun _ _ => node?_bare_modifyPort ..) (fun g => ?_) g
  show ((g.modifyNode id (fun n => n.mapPorts Port.severed) _).node? i).map Node.bare = _
  rw [node?_modifyNode]
  split
  · rw [Option.map_map]
    exact congrArg (Option.map · _) (funext fun n => n.mapPorts_mapPorts Port.severed fun _ => {})
  · rfl

/-- Highlights stay where they are. -/
theorem highlighted_disconnectAll (g : Graph) (id : NodeId) (p : PortRef) :
    ((g.disconnectAll id).port? p).map Port.highlighted = (g.port? p).map Port.highlighted := by
  refine disconnectAll_invariant (fun g => (g.port? p).map Port.highlighted) id (fun g q => ?_)
    (fun g => ?_) g
  · show ((g.modifyPort q _).port? p).map Port.highlighted = _
    rw [port?_modifyPort]
    split
    · rw [Option.map_map]
      rfl
    · rfl
  · show ((g.modifyNode id (fun n => n.mapPorts Port.severed) _).port? p).map Port.highlighted = _
    rw [port?, port?, node?_modifyNode]
    split
    · cases g.node? p.node with
      | none => rfl
      | some n =>
        simp only [Option.map_some, Option.bind_some, Node.port?_mapPorts, Option.map_map]
        rfl
    · rfl

/-- The ports of the node are severed, and all others are detached from it. -/
theorem WellFormed.port?_disconnectAll (hg : g.WellFormed) (id : NodeId) (p : PortRef) :
    (g.disconnectAll id).port? p =
      (g.port? p).map fun port => if p.node = id then port.severed else port.detachNode id := by
  have hpeers := hg.peers_disconnectAll id p
  have hhigh := g.highlighted_disconnectAll id p
  rw [peersWithout, peers_eq, peers_eq] at hpeers
  cases hport : g.port? p with
  | none =>
    rw [hport, Option.map_none, Option.map_eq_none_iff] at hhigh
    rw [hhigh, Option.map_none]
  | some port =>
    rw [hport, Option.map_some, Option.map_eq_some_iff] at hhigh
    obtain ⟨left, hleft, hhigh⟩ := hhigh
    rw [hport, hleft, Option.map_some, Option.map_some, Option.getD_some,
      Option.getD_some] at hpeers
    obtain ⟨peers, highlighted⟩ := left
    simp only at hpeers hhigh
    rw [hleft, Option.map_some, hpeers, hhigh]
    split <;> rfl

theorem WellFormed.node?_disconnectAll (hg : g.WellFormed) (id i : NodeId) :
    (g.disconnectAll id).node? i =
      (g.node? i).map fun n =>
        n.mapPorts fun port => if i = id then port.severed else port.detachNode id :=
  node?_eq_mapPorts (g.node?_bare_disconnectAll id i) fun slot =>
    hg.port?_disconnectAll id ⟨i, slot⟩

/-! ## What is left -/

/-- `g'` is what is left of `g` without the nodes `ids`: the other nodes are as they were, except
that nothing in the lists of their ports mentions one of the removed nodes any more. -/
structure Leaves (g : Graph) (ids : List NodeId) (g' : Graph) : Prop where
  nextId : g'.nextId = g.nextId
  catalog : g'.catalog = g.catalog
  gone : ∀ id ∈ ids, g'.node? id = none
  kept : ∀ id ∉ ids, g'.node? id = (g.node? id).map fun n => n.mapPorts (Port.without ids)

theorem Leaves.refl (g : Graph) : g.Leaves [] g where
  nextId := rfl
  catalog := rfl
  gone id hid := absurd hid List.not_mem_nil
  kept id _ := by
    have hnone : Port.without [] = fun port => port := by
      funext port
      simp [Port.without]
    simp [hnone]

theorem Leaves.trans (h : g.Leaves ids g') (h' : g'.Leaves ids' g'') :
    g.Leaves (ids ++ ids') g'' where
  nextId := h'.nextId.trans h.nextId
  catalog := h'.catalog.trans h.catalog
  gone id hid := by
    by_cases hlater : id ∈ ids'
    · exact h'.gone id hlater
    · have hearlier : id ∈ ids := (List.mem_append.1 hid).resolve_right hlater
      rw [h'.kept id hlater, h.gone id hearlier, Option.map_none]
  kept id hid := by
    rw [List.mem_append, not_or] at hid
    rw [h'.kept id hid.2, h.kept id hid.1, Option.map_map]
    refine congrArg (Option.map · _) (funext fun n => ?_)
    simp only [Function.comp_def, Node.mapPorts_mapPorts, Port.without_without]

/-- What is left is told by which nodes are removed. -/
theorem Leaves.unique (h : g.Leaves ids g') (h' : g.Leaves ids' g'')
    (hids : ∀ id, id ∈ ids ↔ id ∈ ids') : g' = g'' := by
  refine ext_node? (h.nextId.trans h'.nextId.symm) (h.catalog.trans h'.catalog.symm) fun id => ?_
  by_cases hid : id ∈ ids
  · rw [h.gone id hid, h'.gone id ((hids id).1 hid)]
  · rw [h.kept id hid, h'.kept id (mt (hids id).2 hid), Port.without_congr hids]

/-- No port of what is left lists a port of a removed node. -/
theorem Leaves.not_mem_peers (h : g.Leaves ids g') (hq : q ∈ g'.peers p) : q.node ∉ ids := by
  have hp : p.node ∉ ids := by
    intro hp
    have hmem := mem_ids_of_mem_peers hq
    rw [mem_ids, h.gone _ hp] at hmem
    exact Bool.false_ne_true hmem
  rw [peers_eq, port?, h.kept _ hp] at hq
  cases hn : g.node? p.node with
  | none => simp [hn] at hq
  | some n =>
    cases hport : n.port? p.slot with
    | none => simp [hn, Node.port?_mapPorts, hport] at hq
    | some port =>
      simp only [hn, Option.map_some, Option.bind_some, Node.port?_mapPorts, hport,
        Option.getD_some, Port.without, List.mem_filter, decide_eq_true_eq] at hq
      exact hq.2

/-! ## Removals -/

theorem WellFormed.leaves_removeNode (hg : g.WellFormed) (id : NodeId) :
    g.Leaves [id] (g.removeNode id).1 where
  nextId := nextId_removeNode g id
  catalog := catalog_removeNode g id
  gone i hi := by rw [node?_removeNode, if_pos (List.mem_singleton.1 hi)]
  kept i hi := by
    rw [List.mem_singleton] at hi
    rw [node?_removeNode, if_neg hi, hg.node?_disconnectAll, Port.without_singleton]
    simp only [if_neg hi]

/-- Nodes removed one after the other. -/
def removeAll (g : Graph) (ids : List NodeId) : Graph :=
  ids.foldl (fun g id => (g.removeNode id).1) g

theorem WellFormed.leaves_removeAll (hg : g.WellFormed) (ids : List NodeId) :
    g.Leaves ids (g.removeAll ids) := by
  induction ids generalizing g with
  | nil => exact .refl g
  | cons id ids ih => exact (hg.leaves_removeNode id).trans (ih (hg.removeNode id))

/-- In every edited graph, removing a node leaves the subgraph that the others span: each of the
others is as it was, except that the lists of its ports have lost the entries at the removed node,
and those only.  The removed node comes back without edges, and no port mentions it any
more.  Several nodes may be removed in any order, and more than once. -/
theorem Edited.removal_induced (h : g.Edited) (id : NodeId) :
    (g.removeNode id).1.node? id = none ∧
      (∀ i, i ≠ id → (g.removeNode id).1.node? i = (g.node? i).map fun n =>
        n.mapPorts fun port => { port with peers := port.peers.filter fun q => q.node ≠ id }) ∧
      (g.removeNode id).2 = (g.node? id).map (fun n => n.mapPorts Port.severed) ∧
      (∀ n, (g.removeNode id).2 = some n → n.hasConnections = false) ∧
      (∀ p, ∀ q ∈ (g.removeNode id).1.peers p, q.node ≠ id) ∧
      (g.removeNode id).1.nextId = g.nextId ∧
      (g.removeNode id).1.catalog = g.catalog ∧
      ∀ ids ids', (∀ i, i ∈ ids ↔ i ∈ ids') → g.removeAll ids = g.removeAll ids' := by
  have hg := h.wellFormed
  have hleaves := hg.leaves_removeNode id
  have hreturned : (g.removeNode id).2 = (g.node? id).map fun n => n.mapPorts Port.severed := by
    show (g.disconnectAll id).node? id = _
    rw [hg.node?_disconnectAll]
    simp only [if_pos]
  refine ⟨hleaves.gone id (List.mem_singleton_self id), ?_, hreturned, ?_, ?_, hleaves.nextId,
    hleaves.catalog, ?_⟩
  · intro i hi
    rw [hleaves.kept i (mt List.mem_singleton.1 hi), Port.without_singleton]
    rfl
  · intro n hn
    rw [hreturned, Option.map_eq_some_iff] at hn
    obtain ⟨old, -, rfl⟩ := hn
    exact old.hasConnections_severed
  · intro p q hq
    exact mt List.mem_singleton.2 (hleaves.not_mem_peers hq)
  · intro ids ids' hids
    exact (hg.leaves_removeAll ids).unique (hg.leaves_removeAll ids') hids

/-- Two special nodes with two wires between them, on different ports, and one more wire that leads
to a node in between. -/
def braided : Graph :=
  ((({} : Graph).createAll ["LayerStacked", "LayerStacked", "LayerDense"]).connectAll
    [(.aux 0 0, .input 1), (.output 1, .aux 0 1), (.aux 0 0, .input 2), (.output 2, .input 1)])

theorem edited_braided : braided.Edited := ((Built.new.createAll _).connectAll _).edited

/-- The inner special node of `braided` had two wires to the outer one and an edge to the third
node. Without it the outer node keeps its wire to the third node only. -/
theorem removal_braided :
    (braided.node? 1).map Node.connectionCount = some 3 ∧
      ((braided.removeNode 1).1.node? 0 = (braided.node? 0).map fun n =>
        n.mapPorts fun port => { port with peers := port.peers.filter fun q => q.node ≠ 1 }) ∧
      ((braided.removeNode 1).1.node? 0).map Node.connectionCount = some 1 ∧
      braided.removeAll [1, 2] = braided.removeAll [2, 1, 2] := by
  obtain ⟨-, hkept, -, -, -, -, -, horder⟩ := edited_braided.removal_induced 1
  refine ⟨by decide +kernel, hkept 0 (by decide), by decide +kernel, horder [1, 2] [2, 1, 2] ?_⟩
  intro i
  grind

end Graph

end LayerNet
