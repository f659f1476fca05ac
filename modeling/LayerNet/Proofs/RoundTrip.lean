import LayerNet.Proofs.Legality
import LayerNet.Proofs.Likeness

/-!
# Storing and restoring a graph

A document lists the nodes of a graph by their ids and its edges by their outputs.  Restoring the
graph makes the edges again in this order, which is not the order in which they were made.  Every
output port gets its peers back in their order.  An input port gets them in the order of the outputs
(`Graph.restoredPeers`).

* `Edited.exists_restored` — the document of an edited graph is legal, and the restored graph has
  the same nodes and the same edges in this order.
* `Edited.round_trip` — what a user sees of a graph is the same after storing and restoring it.
-/

namespace LayerNet

/-! ## Ports of one node -/

namespace Node

@[simp] theorem bare_bare (n : Node) : n.bare.bare = n.bare := by
  simp [bare, mapPorts]

@[simp] theorem direction?_bare (n : Node) (slot : Slot) :
    n.bare.direction? slot = n.direction? slot := n.direction?_mapPorts slot _

theorem map_fst_ports (n : Node) : n.ports.map Prod.fst = n.slots := by
  have haux : n.aux.zipIdx.map (fun x => Slot.aux x.2) =
      (n.aux.zipIdx.map Prod.snd).map Slot.aux := by
    rw [List.map_map]
    rfl
  rw [ports, slots, List.map_cons, List.map_cons, List.map_map]
  refine congrArg _ (congrArg _ (haux.trans ?_))
  rw [List.zipIdx_map_snd, List.range_eq_range']

theorem mem_slots {n : Node} {slot : Slot} : slot ∈ n.slots ↔ (n.direction? slot).isSome := by
  cases slot with
  | input => simp [slots, direction?]
  | output => simp [slots, direction?]
  | aux index => simp [slots, direction?, n.aux_length]

theorem sorted_slots (n : Node) : n.slots.Pairwise fun s t => s.rank < t.rank := by
  refine List.pairwise_cons.2 ⟨?_, List.pairwise_cons.2 ⟨?_, ?_⟩⟩
  · simp [Slot.rank]
  · simp [Slot.rank]
  · exact List.pairwise_map.2 (List.pairwise_lt_range.imp (by simp [Slot.rank]))

/-- The output ports of a node, in the order of its slots. -/
def outlets (n : Node) : List PortRef :=
  (n.slots.filter fun slot => n.direction? slot = some .output).map (PortRef.mk n.id)

theorem outlets_bare (n : Node) : n.bare.outlets = n.outlets := by
  have hslots : n.bare.slots = n.slots := by simp [slots, bare, mapPorts]
  rw [outlets, outlets, hslots]
  simp only [direction?_bare]
  rfl

end Node

namespace Graph

variable {g g' : Graph} {a b p q : PortRef} {id : NodeId} {n : Node}

/-! ## The order of the outputs -/

/-- The output ports of a graph, by node and within a node by slot. -/
def outlets (g : Graph) : List PortRef := g.nodes.toList.flatMap Node.outlets

theorem mem_outlets : p ∈ g.outlets ↔ g.direction? p = some .output := by
  obtain ⟨id, slot⟩ := p
  simp only [outlets, Node.outlets, List.mem_flatMap, List.mem_map, List.mem_filter,
    decide_eq_true_eq, mem_nodes_iff, PortRef.mk.injEq, direction?, Option.bind_eq_some_iff]
  constructor
  · rintro ⟨n, hn, s, ⟨-, hs⟩, rfl, rfl⟩
    exact ⟨n, hn, hs⟩
  · rintro ⟨n, hn, hs⟩
    obtain rfl := id_of_node? hn
    exact ⟨n, hn, slot, ⟨Node.mem_slots.2 (by rw [hs, Option.isSome_some]), hs⟩, rfl, rfl⟩

theorem sorted_outlets (g : Graph) : g.outlets.Pairwise fun p q =>
    p.node < q.node ∨ p.node = q.node ∧ p.slot.rank < q.slot.rank := by
  refine List.pairwise_flatMap.2 ⟨fun n _ => ?_, g.nodes.sorted.imp fun {m n} hmn p hp q hq => ?_⟩
  · exact List.pairwise_map.2 ((n.sorted_slots.filter _).imp fun h => Or.inr ⟨rfl, h⟩)
  · obtain ⟨s, -, rfl⟩ := List.mem_map.1 hp
    obtain ⟨t, -, rfl⟩ := List.mem_map.1 hq
    exact Or.inl hmn

theorem nodup_outlets (g : Graph) : g.outlets.Nodup :=
  g.sorted_outlets.imp fun {p q} h e => by
    subst e
    exact h.elim (Nat.lt_irrefl _) fun h => Nat.lt_irrefl _ h.2

/-- The edges in the order in which they are stored, each from its output to its input. -/
def storedEdges (g : Graph) : List (PortRef × PortRef) :=
  g.outlets.flatMap fun p => (g.peers p).map fun q => (p, q)

theorem mem_storedEdges {e : PortRef × PortRef} :
    e ∈ g.storedEdges ↔ g.direction? e.1 = some .output ∧ e.2 ∈ g.peers e.1 := by
  obtain ⟨p, q⟩ := e
  simp only [storedEdges, List.mem_flatMap, List.mem_map, mem_outlets, Prod.mk.injEq]
  constructor
  · rintro ⟨p, hp, q, hq, rfl, rfl⟩
    exact ⟨hp, hq⟩
  · exact fun ⟨hp, hq⟩ => ⟨p, hp, q, hq, rfl, rfl⟩

/-- The peers of a port in the order in which they come back. -/
def restoredPeers (g : Graph) (q : PortRef) : List PortRef :=
  if g.direction? q = some .input then g.outlets.filter fun p => p ∈ g.peers q else g.peers q

theorem WellFormed.output_of_input (hg : g.WellFormed) (hq : g.direction? q = some .input)
    (hp : p ∈ g.peers q) : g.direction? p = some .output := by
  obtain ⟨d, hd, hp⟩ := hg.directed hp
  rw [hq, Option.some.injEq] at hd
  rw [hp, ← hd, Direction.opposite]

theorem WellFormed.input_of_output (hg : g.WellFormed) (hp : g.direction? p = some .output)
    (hq : q ∈ g.peers p) : g.direction? q = some .input := by
  obtain ⟨d, hd, hq⟩ := hg.directed hq
  rw [hp, Option.some.injEq] at hd
  rw [hq, ← hd, Direction.opposite]

theorem WellFormed.restoredPeers_perm (hg : g.WellFormed) (q : PortRef) :
    (g.restoredPeers q).Perm (g.peers q) := by
  rw [restoredPeers]
  split
  · rename_i hq
    refine (List.perm_ext_iff_of_nodup (g.nodup_outlets.filter _) (hg.nodup q)).2 fun p => ?_
    rw [List.mem_filter, decide_eq_true_iff, mem_outlets]
    exact and_iff_right_of_imp (hg.output_of_input hq)
  · exact .refl _

/-! ## Making edges one after the other -/

/-- What an edge adds to the peers of a port. -/
def entryAt (q : PortRef) (e : PortRef × PortRef) : List PortRef :=
  if q = e.1 then [e.2] else if q = e.2 then [e.1] else []

theorem WellFormed.peers_connect (hg : g.WellFormed) (h : g.canConnect a b = .ok ())
    (hab : b ∉ g.peers a) (q : PortRef) :
    (g.connect a b).1.peers q = g.peers q ++ entryAt q (a, b) := by
  have hnew := isConnected_eq_false_iff.2 hab
  have hjoin := (admitted_of_canConnect h hnew).joinable
  have hba : a ∉ g.peers b := fun hba => hab (hg.symm hba)
  simp only [Graph.connect, h, hnew, Bool.false_eq_true, if_false]
  rw [peers_link hjoin.isSome_port?.1 hjoin.isSome_port?.2 hjoin.ne hab hba, entryAt]
  split
  · rfl
  · split
    · rfl
    · rw [List.append_nil]

/-- One of several branches over a list without repetition. -/
theorem flatMap_ite_eq {α β : Type} [DecidableEq α] {l : List α} (hl : l.Nodup) (a : α)
    (f : α → List β) :
    (l.flatMap fun x => if a = x then f x else []) = if a ∈ l then f a else [] := by
  induction l with
  | nil => rfl
  | cons x l ih =>
    obtain ⟨hx, hl⟩ := List.nodup_cons.1 hl
    rw [List.flatMap_cons, ih hl]
    by_cases hax : a = x
    · subst hax
      simp [hx]
    · simp [hax]

/-- What the stored edges add to the peers of a port. -/
theorem WellFormed.flatMap_entryAt (hg : g.WellFormed) (q : PortRef) :
    g.storedEdges.flatMap (entryAt q) = g.restoredPeers q := by
  rw [storedEdges, List.flatMap_assoc, restoredPeers]
  by_cases hq : g.direction? q = some .input
  · -- the port is the end of stored edges only
    rw [if_pos hq, ← List.flatMap_singleton' (g.outlets.filter _), filter_flatMap_eq]
    refine List.flatMap_congr fun p hp => ?_
    rw [mem_outlets] at hp
    have hqp : q ≠ p := by
      rintro rfl
      rw [hq] at hp
      cases hp
    rw [List.flatMap_map]
    simp only [entryAt, if_neg hqp]
    rw [flatMap_ite_eq (hg.nodup p) q fun _ => [p]]
    have hsymm : q ∈ g.peers p ↔ p ∈ g.peers q := ⟨hg.symm, hg.symm⟩
    simp only [hsymm, decide_eq_true_eq]
  · -- the port is the start of stored edges only
    rw [if_neg hq]
    have hentries : ∀ p ∈ g.outlets, ((g.peers p).map fun r => (p, r)).flatMap (entryAt q) =
        if q = p then g.peers p else [] := by
      intro p hp
      rw [List.flatMap_map]
      by_cases hqp : q = p
      · simp [entryAt, hqp]
      · have hqr : ∀ r ∈ g.peers p, entryAt q (p, r) = [] := by
          intro r hr
          have hne : q ≠ r := by
            rintro rfl
            exact hq (hg.input_of_output (mem_outlets.1 hp) hr)
          rw [entryAt, if_neg hqp, if_neg hne]
        rw [if_neg hqp, List.flatMap_eq_nil_iff]
        exact hqr
    rw [List.flatMap_congr hentries, flatMap_ite_eq g.nodup_outlets]
    split
    · rfl
    · -- without a direction the port does not exist
      rename_i hout
      have hnone : g.direction? q = none := by
        rw [mem_outlets] at hout
        cases hd : g.direction? q with
        | none => rfl
        | some d => cases d <;> simp [hd] at hq hout
      have hport : g.port? q = none := by
        rw [← Option.not_isSome_iff_eq_none, isSome_port?, hnone]
        simp
      rw [peers, hport]

/-! ## What a document of a graph lists -/

/-- The graphs that a document can hold: the layer types are the built-in ones and tell the special
kinds of the nodes, and the largest id is not used. -/
structure Storable (g : Graph) : Prop where
  catalog : g.catalog = Catalog.builtin
  max_not_mem : maxId ∉ g.ids
  kind_eq : ∀ id n, g.node? id = some n → n.special = Catalog.builtin.specialKind n.layerType

/-- A port as it is stored. -/
def endpoint (g : Graph) (p : PortRef) : Document.Endpoint := ⟨g.ids.idxOf p.node, p.slot⟩

/-- An edge as it is stored. -/
def connection (g : Graph) (e : PortRef × PortRef) : Document.Connection :=
  ⟨g.endpoint e.1, g.endpoint e.2⟩

theorem idxOf?_ids (h : id ∈ g.ids) : g.ids.idxOf? id = some (g.ids.idxOf id) := by
  obtain ⟨i, hi⟩ := Option.isSome_iff_exists.1 (List.isSome_idxOf?.2 h)
  rw [List.idxOf_eq_getD_idxOf?, hi, Option.getD_some]

/-- The edges of one node, in the order of its ports. -/
theorem WellFormed.connectionsOf_eq (hg : g.WellFormed) (hn : g.node? id = some n) :
    Document.connectionsOf g.ids n =
      n.outlets.flatMap fun p => (g.peers p).map fun q => g.connection (p, q) := by
  obtain rfl := id_of_node? hn
  rw [Document.connectionsOf, Node.outlets, List.flatMap_map, ← Node.map_fst_ports, List.filter_map,
    List.flatMap_map]
  refine List.flatMap_congr ?_
  rintro ⟨slot, port⟩ hport
  have hpeers : g.peers ⟨n.id, slot⟩ = port.peers := by
    simp only [peers, port?, hn, Option.bind_some, Node.mem_ports.1 (List.mem_of_mem_filter hport)]
  simp only [hpeers, ← List.filterMap_eq_map]
  refine List.filterMap_congr fun q hq => ?_
  rw [← hpeers] at hq
  rw [idxOf?_ids (mem_ids_of_node? hn), idxOf?_ids (hg.peer_mem_ids hq)]
  rfl

theorem WellFormed.connections_ofGraph (hg : g.WellFormed) (t : Option TrainSettings)
    (now : String) : (Document.ofGraph g t now).connections = g.storedEdges.map g.connection := by
  rw [Document.ofGraph, storedEdges, outlets, List.flatMap_assoc, List.map_flatMap]
  refine List.flatMap_congr fun n hn => ?_
  rw [hg.connectionsOf_eq (mem_nodes_iff.1 hn), List.map_flatMap]
  simp only [List.map_map]
  rfl

theorem map_id_nodes_ofGraph (g : Graph) (t : Option TrainSettings) (now : String) :
    (Document.ofGraph g t now).nodes.map Document.NodeRecord.id = g.ids := by
  rw [Document.ofGraph, List.map_map]
  rfl

/-- A record stands for its node. -/
theorem Storable.node_ofNode (hs : g.Storable) (hn : g.node? id = some n) :
    (Document.NodeRecord.ofNode n).node Catalog.builtin = n.bare := by
  have hkind := hs.kind_eq id n hn
  obtain ⟨nid, layerType, label, position, strings, floats, special, input, output, aux, haux⟩ := n
  simp only at hkind haux
  simp [Document.NodeRecord.node, Document.NodeRecord.ofNode, Node.new, Node.bare, Node.mapPorts,
    ← hkind, ← haux, List.map_const']

/-- A stored end is the port that it was made from. -/
theorem Storable.end?_endpoint (hs : g.Storable) {d : Direction} (hp : g.direction? p = some d)
    (t : Option TrainSettings) (now : String) :
    (Document.ofGraph g t now).end? (g.endpoint p) = some (p, d) := by
  obtain ⟨n, hn, hd⟩ := Option.bind_eq_some_iff.1 hp
  have hindex : g.ids[g.ids.idxOf p.node]? = some p.node :=
    List.getElem?_idxOf (mem_ids_of_node? hn)
  rw [ids, Keyed.keys, List.getElem?_map, Option.map_eq_some_iff] at hindex
  obtain ⟨m, hm, hmid⟩ := hindex
  have hmn : m = n := by
    have hfound := mem_nodes_iff.1 (List.mem_of_getElem? hm)
    rw [hmid, hn] at hfound
    exact (Option.some.inj hfound).symm
  subst hmn
  refine Document.end?_eq_some_iff.2 ⟨.ofNode m, ?_, ?_, ?_⟩
  · rw [Document.ofGraph, endpoint, List.getElem?_map]
    exact congrArg _ hm
  · exact congrArg (PortRef.mk · p.slot) hmid.symm
  · rw [hs.node_ofNode hn]
    exact (m.direction?_bare p.slot).trans hd

/-! ## Restoring -/

theorem WellFormed.ends_connection (hg : g.WellFormed) (hs : g.Storable) (t : Option TrainSettings)
    (now : String) {e : PortRef × PortRef} (he : e ∈ g.storedEdges) :
    (Document.ofGraph g t now).end? (g.connection e).source = some (e.1, .output) ∧
      (Document.ofGraph g t now).end? (g.connection e).target = some (e.2, .input) := by
  obtain ⟨hp, hq⟩ := mem_storedEdges.1 he
  exact ⟨hs.end?_endpoint hp t now, hs.end?_endpoint (hg.input_of_output hp hq) t now⟩

/-- The document of an edited graph is legal. -/
theorem Edited.legal_ofGraph (hg : g.Edited) (hs : g.Storable) (t : Option TrainSettings)
    (now : String) : (Document.ofGraph g t now).Legal where
  nodup_ids := by
    rw [map_id_nodes_ofGraph]
    exact g.nodup_ids
  id_ne_max r hr e := hs.max_not_mem (by
    rw [← e, ← map_id_nodes_ofGraph g t now]
    exact List.mem_map_of_mem hr)
  joins c hc := by
    rw [hg.wellFormed.connections_ofGraph] at hc
    obtain ⟨e, he, rfl⟩ := List.mem_map.1 hc
    obtain ⟨hsource, htarget⟩ := hg.wellFormed.ends_connection hs t now he
    obtain ⟨-, hq⟩ := mem_storedEdges.1 he
    exact ⟨_, _, hsource, htarget, hg.wellFormed.node_ne hq, rfl, hg.wellFormed.primary hq⟩
  lawful := by
    refine hg.lawful.mono fun p q hpq => ?_
    obtain ⟨c, hc, a, b, ha, hb, hpq⟩ := hpq
    rw [hg.wellFormed.connections_ofGraph] at hc
    obtain ⟨e, he, rfl⟩ := List.mem_map.1 hc
    obtain ⟨hsource, htarget⟩ := hg.wellFormed.ends_connection hs t now he
    obtain rfl := Option.some.inj (ha.symm.trans hsource)
    obtain rfl := Option.some.inj (hb.symm.trans htarget)
    obtain ⟨-, hq⟩ := mem_storedEdges.1 he
    exact EdgeSet.between_le_iff.2 ⟨hq, hg.wellFormed.symm hq⟩ p q hpq

end Graph

namespace Document

open LayerNet.Graph

variable {d : Document} {g g' : Graph} {cs : List Connection} {index : Nat}

/-- What every connection keeps is kept by all connections of a document. -/
theorem addConnections_induction {motive : Graph → Prop}
    (connect : ∀ g a b, motive g → motive (g.connect a b).1) (hg : motive g)
    (h : d.addConnections g index cs = .ok g') : motive g' := by
  induction cs generalizing g index with
  | nil =>
    obtain rfl : g = g' := Except.ok.inj h
    exact hg
  | cons c cs ih =>
    obtain ⟨g₁, hfirst, hrest⟩ := bind_eq_ok_iff.1 h
    obtain ⟨p, q, -, -, -, rfl⟩ := addConnection_eq_ok_iff.1 hfirst
    exact ih (connect g p q hg) hrest

/-- New edges are entered one after the other at the ends of the lists of their ports. -/
theorem Hosts.peers_addConnections (h : d.Hosts g) {edges : List (PortRef × PortRef)}
    {stored : PortRef × PortRef → Connection}
    (hends : ∀ e ∈ edges, d.end? (stored e).source = some (e.1, .output) ∧
      d.end? (stored e).target = some (e.2, .input))
    (hg : d.addConnections g index (edges.map stored) = .ok g')
    (hnew : ∀ q, (g.peers q ++ edges.flatMap (entryAt q)).Nodup) (q : PortRef) :
    g'.peers q = g.peers q ++ edges.flatMap (entryAt q) := by
  induction edges generalizing g index with
  | nil =>
    obtain rfl : g = g' := Except.ok.inj hg
    rw [List.flatMap_nil, List.append_nil]
  | cons e edges ih =>
    obtain ⟨a, b⟩ := e
    obtain ⟨g₁, hfirst, hrest⟩ := bind_eq_ok_iff.1 hg
    obtain ⟨x, y, hx, hy, hmatch, hlawful, rfl⟩ := h.addConnection_eq_ok_iff.1 hfirst
    obtain ⟨hsource, htarget⟩ := hends _ List.mem_cons_self
    obtain rfl := Option.some.inj (hx.symm.trans hsource)
    obtain rfl := Option.some.inj (hy.symm.trans htarget)
    have hcan : g.canConnect a b = .ok () :=
      (h.wellFormed.canConnect_iff h.lawful).2 ⟨(h.joinable_iff hsource htarget).2 hmatch, hlawful⟩
    have hab : b ∉ g.peers a := by
      have hfresh := hnew a
      rw [List.flatMap_cons, entryAt, if_pos rfl] at hfresh
      exact fun hab => (List.nodup_append.1 hfresh).2.2 b hab b (by simp) rfl
    have hpeers := h.wellFormed.peers_connect hcan hab
    refine (ih (h.connect a b) (fun e he => hends e (List.mem_cons_of_mem _ he)) hrest
      fun q => ?_).trans ?_
    · rw [hpeers, List.append_assoc, ← List.flatMap_cons]
      exact hnew q
    · rw [hpeers, List.append_assoc, ← List.flatMap_cons]

end Document

namespace Graph

variable {g g' : Graph} {p q : PortRef} {id : NodeId} {n : Node}

/-- The graph that comes back from a document: the nodes and edges of the graph that was stored, with
the peers of each port in the order of the document. -/
structure Restored (g g' : Graph) : Prop where
  alike : g.Alike g'
  wellFormed : g'.WellFormed
  peers_eq : ∀ q, g'.peers q = g.restoredPeers q

theorem Storable.node?_nodesOnly (hs : g.Storable) (t : Option TrainSettings) (now : String)
    (id : NodeId) :
    (Document.ofGraph g t now).nodesOnly.node? id = (g.node? id).map Node.bare := by
  have hids := map_id_nodes_ofGraph g t now
  have hnodup : ((Document.ofGraph g t now).nodes.map Document.NodeRecord.id).Nodup := by
    rw [hids]
    exact g.nodup_ids
  cases hn : g.node? id with
  | none =>
    refine Document.node?_withRecords_of_not_mem hnodup (fun _ _ => rfl) ?_
    rw [hids, mem_ids, hn]
    simp
  | some n =>
    have hmem : Document.NodeRecord.ofNode n ∈ (Document.ofGraph g t now).nodes :=
      List.mem_map_of_mem (mem_nodes_of_node? hn)
    have hfound := Document.node?_nodesOnly hnodup hmem
    rwa [hs.node_ofNode hn, show (Document.NodeRecord.ofNode n).id = id from id_of_node? hn]
      at hfound

/-- An edited graph comes back from its document. -/
theorem Edited.exists_restored (hg : g.Edited) (hs : g.Storable) (t : Option TrainSettings)
    (now : String) : ∃ g', (Document.ofGraph g t now).toGraph = .ok g' ∧ g.Restored g' := by
  have hw := hg.wellFormed
  obtain ⟨g', hg'⟩ := (Document.exists_toGraph_iff _).2 (hg.legal_ofGraph hs t now)
  obtain ⟨hnodup, -, hreplay⟩ := Document.toGraph_eq_ok_iff.1 hg'
  have hcatalog : g'.catalog = (Document.ofGraph g t now).nodesOnly.catalog :=
    Document.addConnections_induction (motive := fun x => x.catalog = _)
      (fun x a b hx => (catalog_connect x a b).trans hx) rfl hreplay
  have hnodes : ∀ id, (g'.node? id).map Node.bare =
      ((Document.ofGraph g t now).nodesOnly.node? id).map Node.bare :=
    Document.addConnections_induction (motive := fun x => ∀ id, (x.node? id).map Node.bare =
        ((Document.ofGraph g t now).nodesOnly.node? id).map Node.bare)
      (fun x a b hx id => (node?_bare_connect x a b id).trans (hx id)) (fun _ => rfl) hreplay
  have hpeers : ∀ q, g'.peers q = g.restoredPeers q := by
    intro q
    have hhosts := Document.hosts_nodesOnly hnodup
    rw [hw.connections_ofGraph] at hreplay
    rw [hhosts.peers_addConnections (fun e he => hw.ends_connection hs t now he) hreplay,
      Document.peers_nodesOnly, List.nil_append, hw.flatMap_entryAt]
    intro q
    rw [Document.peers_nodesOnly, List.nil_append, hw.flatMap_entryAt]
    exact (hw.restoredPeers_perm q).nodup_iff.2 (hw.nodup q)
  refine ⟨g', hg', ⟨?_, fun id => ?_, fun q => ?_⟩, (Document.edgeSet_of_toGraph hg').1, hpeers⟩
  · rw [hcatalog, hs.catalog]
    exact Document.catalog_withRecords _ _
  · rw [hnodes, hs.node?_nodesOnly, Option.map_map]
    simp [Function.comp_def]
  · rw [hpeers]
    exact hw.restoredPeers_perm q

/-! ## The same document again -/

theorem Alike.outlets_eq (h : g.Alike g') : g'.outlets = g.outlets := by
  refine h.flatMap_nodes fun id n n' hn hn' => ?_
  rw [← n'.outlets_bare, h.bare_eq hn hn', n.outlets_bare]

theorem Restored.peers_output (h : g.Restored g') (hp : g.direction? p = some .output) :
    g'.peers p = g.peers p := by
  rw [h.peers_eq, restoredPeers, hp, if_neg (by simp)]

theorem Restored.storedEdges_eq (h : g.Restored g') : g'.storedEdges = g.storedEdges := by
  rw [storedEdges, storedEdges, h.alike.outlets_eq]
  exact List.flatMap_congr fun p hp => by rw [h.peers_output (mem_outlets.1 hp)]

theorem Restored.nodes_ofGraph (h : g.Restored g') (t t' : Option TrainSettings)
    (now now' : String) :
    (Document.ofGraph g' t' now').nodes = (Document.ofGraph g t now).nodes := by
  rw [Document.ofGraph, Document.ofGraph, List.map_eq_flatMap, List.map_eq_flatMap]
  refine h.alike.flatMap_nodes fun id n n' hn hn' => ?_
  exact congrArg (fun r => [r])
    (congrArg Document.NodeRecord.ofNode (h.alike.bare_eq hn hn') :)

theorem Restored.connections_ofGraph (h : g.Restored g') (hg : g.WellFormed)
    (t t' : Option TrainSettings) (now now' : String) :
    (Document.ofGraph g' t' now').connections = (Document.ofGraph g t now).connections := by
  have hstored : g'.connection = g.connection := by
    funext e
    simp only [connection, endpoint, h.alike.ids_eq]
  rw [h.wellFormed.connections_ofGraph, hg.connections_ofGraph, h.storedEdges_eq, hstored]

/-- Storing an edited graph and restoring it gives a graph with the same nodes and edges, the same
order of edges at every output, the same report on its structure, and the same document. -/
theorem Edited.round_trip (hg : g.Edited) (hs : g.Storable) (t : Option TrainSettings)
    (now : String) :
    ∃ g', (Document.ofGraph g t now).toGraph = .ok g' ∧ g'.ids = g.ids ∧
      (∀ id n, g.node? id = some n → ∃ n', g'.node? id = some n' ∧
        n'.layerType = n.layerType ∧ n'.label = n.label ∧ n'.position = n.position ∧
          n'.stringParams = n.stringParams ∧ n'.floatParams = n.floatParams ∧
          n'.special = n.special) ∧
      (∀ p q, q ∈ g'.peers p ↔ q ∈ g.peers p) ∧
      (∀ p, g.direction? p = some .output → g'.peers p = g.peers p) ∧
      g'.validate = g.validate ∧
      ∀ t' now', (Document.ofGraph g' t' now').nodes = (Document.ofGraph g t now).nodes ∧
        (Document.ofGraph g' t' now').connections = (Document.ofGraph g t now).connections := by
  obtain ⟨g', hg', h⟩ := hg.exists_restored hs t now
  refine ⟨g', hg', h.alike.ids_eq, fun id n hn => ?_, fun p q => (h.alike.peers p).mem_iff,
    fun p hp => h.peers_output hp, h.alike.validate_eq hg.wellFormed h.wellFormed,
    fun t' now' => ⟨h.nodes_ofGraph .., h.connections_ofGraph hg.wellFormed ..⟩⟩
  obtain ⟨n', hn', hbare⟩ := h.alike.exists_node? hn
  exact ⟨n', hn', (Node.fields_of_bare_eq hbare).2⟩

/-- A special node whose auxiliary input reads from two nodes, of which the later one was joined
first. -/
def crossed : Graph :=
  (createAll {} ["LayerDense", "LayerStacked", "LayerDense", "LayerDense", "LayerDense"]).connectAll
    [(.output 0, .input 1), (.output 1, .input 4), (.aux 1 0, .input 3), (.aux 1 0, .input 2),
      (.output 3, .aux 1 1), (.output 2, .aux 1 1)]

theorem built_crossed : crossed.Built := (Built.new.createAll _).connectAll _

theorem Built.storable (h : g.Built) (hmax : maxId ∉ g.ids) : g.Storable :=
  ⟨h.kind_eq.1, hmax, h.kind_eq.2⟩

theorem storable_crossed : crossed.Storable := built_crossed.storable (by decide +kernel)

theorem round_trip_crossed : ∃ g', (Document.ofGraph crossed none "").toGraph = .ok g' ∧
    g'.ids = [0, 1, 2, 3, 4] ∧ PortRef.output 2 ∈ g'.peers (.aux 1 1) ∧
      g'.peers (.aux 1 0) = [.input 3, .input 2] ∧ g'.validate.diagnostics = [] := by
  obtain ⟨g', hg', hids, -, hedges, houtputs, hvalidate, -⟩ :=
    built_crossed.edited.round_trip storable_crossed none ""
  refine ⟨g', hg', ?_, (hedges _ _).2 (by decide +kernel), ?_, ?_⟩
  · rw [hids]
    decide +kernel
  · rw [houtputs _ (by decide +kernel)]
    decide +kernel
  · rw [hvalidate]
    decide +kernel

end Graph

end LayerNet
