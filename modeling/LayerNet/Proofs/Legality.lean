import LayerNet.Document
import LayerNet.Proofs.Lawful

/-!
# Legal documents

A graph is rebuilt from a document record by record and connection by connection, and each connection
is checked against what is there already.  Whether all of them pass can be told from the document as
a whole: `Document.Legal` speaks about all connections together, and `toGraph_ok_iff_legal` says that
the legal documents are those that a graph can be rebuilt from, and that this graph has exactly the
listed edges.

The reason is that a part of a lawful set of edges is lawful.  The invariant of the replay is
`Document.Hosts`: the graph has the nodes of the document, and its edges are lawful.
-/

namespace LayerNet

/-- A sequence of two steps succeeds if both do. -/
theorem bind_eq_ok_iff {ε α β : Type} {x : Except ε α} {f : α → Except ε β} {b : β} :
    (x >>= f) = .ok b ↔ ∃ a, x = .ok a ∧ f a = .ok b := by
  cases x <;> simp [bind, Except.bind]

namespace Document

open LayerNet.Graph

variable {d d' : Document} {g g' : Graph} {c : Connection} {cs : List Connection}
  {r : NodeRecord} {rs : List NodeRecord} {a b p q : PortRef} {index : Nat}

/-! ## What a document lists -/

/-- The port at one end of a connection with its direction, if there is such a record and the nodes
of its layer type have such a slot. -/
def end? (d : Document) (e : Endpoint) : Option (PortRef × Direction) :=
  d.nodes[e.node]?.bind fun r =>
    ((r.node Catalog.builtin).direction? e.slot).map fun direction => (⟨r.id, e.slot⟩, direction)

/-- Two ports that an edge may join: an input and an output of different nodes, not both of them
auxiliary. -/
structure Matching (a b : PortRef × Direction) : Prop where
  node_ne : a.1.node ≠ b.1.node
  opposite : b.2 = a.2.opposite
  primary : a.1.slot.isAux = false ∨ b.1.slot.isAux = false

/-- The ends of a connection are ports that an edge may join. -/
def Joins (d : Document) (c : Connection) : Prop :=
  ∃ a b, d.end? c.source = some a ∧ d.end? c.target = some b ∧ Matching a b

/-- The edges that a list of connections stands for. -/
def edgesOf (d : Document) (cs : List Connection) : EdgeSet := fun p q =>
  ∃ c ∈ cs, ∃ a b, d.end? c.source = some a ∧ d.end? c.target = some b ∧
    EdgeSet.between a.1 b.1 p q

/-- All edges that a document lists. -/
def edgeSet (d : Document) : EdgeSet := d.edgesOf d.connections

/-- The documents of networks. -/
structure Legal (d : Document) : Prop where
  nodup_ids : (d.nodes.map NodeRecord.id).Nodup
  id_ne_max : ∀ r ∈ d.nodes, r.id ≠ maxId
  joins : ∀ c ∈ d.connections, d.Joins c
  lawful : d.edgeSet.Lawful

theorem edgesOf_nil (d : Document) : d.edgesOf [] = ⊥ := by
  funext p q
  simp [edgesOf]

theorem edgesOf_cons {a b : PortRef × Direction} (ha : d.end? c.source = some a)
    (hb : d.end? c.target = some b) :
    d.edgesOf (c :: cs) = EdgeSet.between a.1 b.1 ⊔ d.edgesOf cs := by
  funext p q
  refine propext ((List.exists_mem_cons_iff _ c cs).trans (or_congr_left ?_))
  refine ⟨?_, fun h => ⟨a, b, ha, hb, h⟩⟩
  rintro ⟨a', b', ha', hb', h⟩
  rwa [Option.some.inj (ha.symm.trans ha'), Option.some.inj (hb.symm.trans hb')]

/-! ## Records -/

/-- The graph with the nodes of some more records. -/
def withRecords (g : Graph) (rs : List NodeRecord) : Graph :=
  rs.foldl (fun g r => g.insertAs r.id (r.node g.catalog)) g

theorem addRecords_eq_ok_iff {seen : List NodeId} :
    addRecords g seen rs = .ok g' ↔ (rs.map NodeRecord.id).Nodup ∧
      (∀ r ∈ rs, r.id ≠ maxId ∧ r.id ∉ seen) ∧ g' = withRecords g rs := by
  induction rs generalizing g seen with
  | nil => simp [addRecords, withRecords, eq_comm]
  | cons r rs ih =>
    rw [addRecords]
    by_cases hmax : r.id = maxId
    · simp [hmax]
    · by_cases hseen : r.id ∈ seen
      · simp [hmax, hseen]
      · rw [if_neg hmax, if_neg hseen, ih, List.map_cons, List.nodup_cons, List.forall_mem_cons]
        simp only [List.mem_cons, not_or, withRecords, List.foldl_cons, hmax, hseen, ne_eq,
          not_false_eq_true, and_self, true_and, List.mem_map, not_exists, not_and]
        constructor
        · rintro ⟨hnodup, hrest, rfl⟩
          exact ⟨⟨fun x hx => (hrest x hx).2.1, hnodup⟩, fun x hx =>
            ⟨(hrest x hx).1, (hrest x hx).2.2⟩, rfl⟩
        · rintro ⟨⟨hfresh, hnodup⟩, hrest, rfl⟩
          exact ⟨hnodup, fun x hx => ⟨(hrest x hx).1, hfresh x hx, (hrest x hx).2⟩, rfl⟩

theorem node?_insertAs_of_none (h : g.node? r.id = none) (n : Node) (id : NodeId) :
    (g.insertAs r.id n).node? id =
      if id = r.id then some { n.mapPorts fun _ => {} with id := r.id } else g.node? id := by
  rw [node?_insertAs, h]
  rfl

/-- The node of a record has no edges. -/
theorem mapPorts_node (r : NodeRecord) (catalog : Catalog) :
    { (r.node catalog).mapPorts fun _ => {} with id := r.id } = r.node catalog := by
  simp [NodeRecord.node, Node.mapPorts, Node.new]

theorem catalog_withRecords (g : Graph) (rs : List NodeRecord) :
    (withRecords g rs).catalog = g.catalog := by
  induction rs generalizing g with
  | nil => rfl
  | cons r rs ih => exact (ih _).trans (catalog_insertAs ..)

theorem fresh_insertAs (hnodup : ((r :: rs).map NodeRecord.id).Nodup)
    (hfresh : ∀ x ∈ r :: rs, g.node? x.id = none) (n : Node) :
    ∀ x ∈ rs, (g.insertAs r.id n).node? x.id = none := by
  intro x hx
  have hne : x.id ≠ r.id := fun e =>
    (List.nodup_cons.1 hnodup).1 (List.mem_map.2 ⟨x, hx, e⟩)
  rw [node?_insertAs_of_none (hfresh r List.mem_cons_self), if_neg hne]
  exact hfresh x (List.mem_cons_of_mem r hx)

/-- New records leave the nodes under other ids alone. -/
theorem node?_withRecords_of_not_mem (hnodup : (rs.map NodeRecord.id).Nodup)
    (hfresh : ∀ r ∈ rs, g.node? r.id = none) {id : NodeId} (h : id ∉ rs.map NodeRecord.id) :
    (withRecords g rs).node? id = g.node? id := by
  induction rs generalizing g with
  | nil => rfl
  | cons x rs ih =>
    rw [List.map_cons, List.mem_cons, not_or] at h
    refine (ih (List.nodup_cons.1 hnodup).2 (fresh_insertAs hnodup hfresh _) h.2).trans ?_
    rw [node?_insertAs_of_none (hfresh x List.mem_cons_self), if_neg h.1]

/-- Each of several new records with different ids has its node in the graph. -/
theorem node?_withRecords (hnodup : (rs.map NodeRecord.id).Nodup)
    (hfresh : ∀ r ∈ rs, g.node? r.id = none) (hr : r ∈ rs) :
    (withRecords g rs).node? r.id = some (r.node g.catalog) := by
  induction rs generalizing g with
  | nil => exact absurd hr List.not_mem_nil
  | cons x rs ih =>
    have hfresh' := fresh_insertAs hnodup hfresh (x.node g.catalog)
    have hnodup' := List.nodup_cons.1 hnodup
    rcases List.mem_cons.1 hr with rfl | hr
    · refine (node?_withRecords_of_not_mem hnodup'.2 hfresh' hnodup'.1).trans ?_
      rw [node?_insertAs_of_none (hfresh r List.mem_cons_self), if_pos rfl, mapPorts_node]
    · refine (ih hnodup'.2 hfresh' hr).trans ?_
      rw [catalog_insertAs]

theorem wellFormed_withRecords (hg : g.WellFormed) (rs : List NodeRecord) :
    (withRecords g rs).WellFormed := by
  induction rs generalizing g with
  | nil => exact hg
  | cons r rs ih => exact ih (hg.insertAs ..)

/-- Records bring no edges along. -/
theorem peers_withRecords (hg : g.WellFormed) (hpeers : ∀ p, g.peers p = [])
    (rs : List NodeRecord) (p : PortRef) : (withRecords g rs).peers p = [] := by
  induction rs generalizing g with
  | nil => exact hpeers p
  | cons r rs ih =>
    refine ih (hg.insertAs ..) fun q => ?_
    rw [hg.peers_insertAs]
    exact List.sublist_nil.1 (hpeers q ▸ peersWithout_sublist ..)

/-! ## The graph during the replay -/

/-- A graph has the nodes of a document, and its edges are lawful. -/
structure Hosts (d : Document) (g : Graph) : Prop where
  wellFormed : g.WellFormed
  lawful : g.edgeSet.Lawful
  direction? : ∀ r ∈ d.nodes, ∀ slot,
    g.direction? ⟨r.id, slot⟩ = (r.node Catalog.builtin).direction? slot

/-- The graph before the first connection. -/
def nodesOnly (d : Document) : Graph := withRecords {} d.nodes

theorem wellFormed_empty : Graph.WellFormed {} := (valid_empty Catalog.builtin).wellFormed

theorem peers_nodesOnly (d : Document) (p : PortRef) : d.nodesOnly.peers p = [] :=
  peers_withRecords wellFormed_empty (fun _ => rfl) d.nodes p

theorem edgeSet_nodesOnly (d : Document) : d.nodesOnly.edgeSet = ⊥ := by
  funext p q
  simp [Graph.edgeSet, peers_nodesOnly]

theorem node?_nodesOnly (h : (d.nodes.map NodeRecord.id).Nodup) (hr : r ∈ d.nodes) :
    d.nodesOnly.node? r.id = some (r.node Catalog.builtin) :=
  node?_withRecords h (fun _ _ => rfl) hr

theorem hosts_nodesOnly (h : (d.nodes.map NodeRecord.id).Nodup) : d.Hosts d.nodesOnly where
  wellFormed := wellFormed_withRecords wellFormed_empty d.nodes
  lawful := by
    rw [edgeSet_nodesOnly]
    exact EdgeSet.lawful_bot
  direction? r hr slot := by
    rw [Graph.direction?, node?_nodesOnly h hr, Option.bind_some]

theorem end?_eq_some_iff {e : Endpoint} {a : PortRef × Direction} :
    d.end? e = some a ↔ ∃ r, d.nodes[e.node]? = some r ∧ a.1 = ⟨r.id, e.slot⟩ ∧
      (r.node Catalog.builtin).direction? e.slot = some a.2 := by
  obtain ⟨p, direction⟩ := a
  simp only [end?, Option.bind_eq_some_iff, Option.map_eq_some_iff, Prod.mk.injEq]
  constructor
  · rintro ⟨r, hr, direction, hd, rfl, rfl⟩
    exact ⟨r, hr, rfl, hd⟩
  · rintro ⟨r, hr, rfl, hd⟩
    exact ⟨r, hr, direction, hd, rfl, rfl⟩

theorem Hosts.direction?_of_end? (h : d.Hosts g) {e : Endpoint} {a : PortRef × Direction}
    (ha : d.end? e = some a) : g.direction? a.1 = some a.2 := by
  obtain ⟨r, hr, hport, hd⟩ := end?_eq_some_iff.1 ha
  rw [hport, h.direction? r (List.mem_of_getElem? hr), hd]

/-- Ends are resolved to the ports that they stand for. -/
theorem Hosts.resolve_eq_ok_iff (h : d.Hosts g) {e : Endpoint} :
    d.resolve g index e = .ok p ↔ ∃ direction, d.end? e = some (p, direction) := by
  simp only [end?_eq_some_iff]
  unfold resolve
  cases hr : d.nodes[e.node]? with
  | none => simp
  | some r =>
    have hport : (g.port? ⟨r.id, e.slot⟩).isSome =
        ((r.node Catalog.builtin).direction? e.slot).isSome := by
      rw [isSome_port?, h.direction? r (List.mem_of_getElem? hr)]
    simp only [hport]
    cases hd : (r.node Catalog.builtin).direction? e.slot with
    | none => simp [hd]
    | some direction => simp [hd, eq_comm]

theorem Hosts.joinable_iff (h : d.Hosts g) {x y : Endpoint} {a b : PortRef × Direction}
    (ha : d.end? x = some a) (hb : d.end? y = some b) : g.Joinable a.1 b.1 ↔ Matching a b := by
  have hda := h.direction?_of_end? ha
  have hdb := h.direction?_of_end? hb
  constructor
  · rintro ⟨⟨direction, hda', hdb'⟩, hnode, hprimary⟩
    refine ⟨hnode, ?_, hprimary⟩
    rw [hda, Option.some.injEq] at hda'
    rw [hdb, Option.some.injEq] at hdb'
    rw [hdb', hda']
  · exact fun hm => ⟨⟨a.2, hda, hm.opposite ▸ hdb⟩, hm.node_ne, hm.primary⟩

theorem Hosts.connect (h : d.Hosts g) (a b : PortRef) : d.Hosts (g.connect a b).1 where
  wellFormed := h.wellFormed.connect a b
  lawful := h.wellFormed.lawful_connect h.lawful a b
  direction? r hr slot := by rw [direction?_connect, h.direction? r hr slot]

theorem addConnection_eq_ok_iff :
    d.addConnection g index c = .ok g' ↔
      ∃ p q, d.resolve g index c.source = .ok p ∧ d.resolve g index c.target = .ok q ∧
        g.canConnect p q = .ok () ∧ (g.connect p q).1 = g' := by
  simp only [addConnection, bind_eq_ok_iff, ← exists_and_left]
  refine exists₂_congr fun p q => and_congr_right fun _ => and_congr_right fun _ => ?_
  cases g.canConnect p q <;> simp

/-- A connection passes if its ends may be joined by an edge and the edges with this one are
lawful. -/
theorem Hosts.addConnection_eq_ok_iff (h : d.Hosts g) :
    d.addConnection g index c = .ok g' ↔
      ∃ a b, d.end? c.source = some a ∧ d.end? c.target = some b ∧ Matching a b ∧
        (g.edgeSet ⊔ EdgeSet.between a.1 b.1).Lawful ∧ (g.connect a.1 b.1).1 = g' := by
  simp only [Document.addConnection_eq_ok_iff, h.resolve_eq_ok_iff,
    h.wellFormed.canConnect_iff h.lawful]
  constructor
  · rintro ⟨p, q, ⟨dp, hp⟩, ⟨dq, hq⟩, ⟨hjoin, hlawful⟩, hg⟩
    exact ⟨(p, dp), (q, dq), hp, hq, (h.joinable_iff hp hq).1 hjoin, hlawful, hg⟩
  · rintro ⟨a, b, ha, hb, hmatch, hlawful, hg⟩
    exact ⟨a.1, b.1, ⟨a.2, ha⟩, ⟨b.2, hb⟩, ⟨(h.joinable_iff ha hb).2 hmatch, hlawful⟩, hg⟩

/-- The edges after a connection that passes. -/
theorem Hosts.edgeSet_connect (h : d.Hosts g) {x y : Endpoint} {a b : PortRef × Direction}
    (ha : d.end? x = some a) (hb : d.end? y = some b) (hmatch : Matching a b)
    (hlawful : (g.edgeSet ⊔ EdgeSet.between a.1 b.1).Lawful) :
    (g.connect a.1 b.1).1.edgeSet = g.edgeSet ⊔ EdgeSet.between a.1 b.1 :=
  h.wellFormed.edgeSet_connect
    ((h.wellFormed.canConnect_iff h.lawful).2 ⟨(h.joinable_iff ha hb).2 hmatch, hlawful⟩)

/-- The connections pass one after the other if each of them joins matching ends and all edges
together are lawful. -/
theorem Hosts.addConnections_iff (h : d.Hosts g) :
    (∃ g', d.addConnections g index cs = .ok g') ↔
      (∀ c ∈ cs, d.Joins c) ∧ (g.edgeSet ⊔ d.edgesOf cs).Lawful := by
  induction cs generalizing g index with
  | nil => simp [addConnections, edgesOf_nil, h.lawful]
  | cons c cs ih =>
    simp only [addConnections, bind_eq_ok_iff, h.addConnection_eq_ok_iff, List.forall_mem_cons]
    constructor
    · rintro ⟨g', -, ⟨a, b, ha, hb, hmatch, hlawful, rfl⟩, hrest⟩
      obtain ⟨hjoins, hall⟩ := (ih (h.connect a.1 b.1)).1 ⟨g', hrest⟩
      rw [h.edgeSet_connect ha hb hmatch hlawful, sup_assoc] at hall
      exact ⟨⟨⟨a, b, ha, hb, hmatch⟩, hjoins⟩, by rwa [edgesOf_cons ha hb]⟩
    · rintro ⟨⟨⟨a, b, ha, hb, hmatch⟩, hjoins⟩, hall⟩
      rw [edgesOf_cons ha hb, ← sup_assoc] at hall
      -- the edges so far are a part of all edges
      have hlawful := hall.mono le_sup_left
      rw [← h.edgeSet_connect ha hb hmatch hlawful] at hall
      have hrest : ∃ g', d.addConnections (g.connect a.1 b.1).1 (index + 1) cs = .ok g' :=
        (ih (h.connect a.1 b.1)).2 ⟨hjoins, hall⟩
      obtain ⟨g', hrest⟩ := hrest
      exact ⟨g', _, ⟨a, b, ha, hb, hmatch, hlawful, rfl⟩, hrest⟩

/-- After the replay the graph has the edges of the connections besides its own. -/
theorem Hosts.edgeSet_addConnections (h : d.Hosts g) (hg : d.addConnections g index cs = .ok g') :
    d.Hosts g' ∧ g'.edgeSet = g.edgeSet ⊔ d.edgesOf cs := by
  induction cs generalizing g index with
  | nil =>
    obtain rfl : g = g' := Except.ok.inj hg
    exact ⟨h, by rw [edgesOf_nil, sup_bot_eq]⟩
  | cons c cs ih =>
    simp only [addConnections, bind_eq_ok_iff, h.addConnection_eq_ok_iff] at hg
    obtain ⟨-, ⟨a, b, ha, hb, hmatch, hlawful, rfl⟩, hrest⟩ := hg
    obtain ⟨hhosts, hedges⟩ := ih (h.connect a.1 b.1) hrest
    refine ⟨hhosts, ?_⟩
    rw [hedges, h.edgeSet_connect ha hb hmatch hlawful, edgesOf_cons ha hb, sup_assoc]

/-! ## The document as a whole -/

theorem toGraph_eq_ok_iff : d.toGraph = .ok g ↔ (d.nodes.map NodeRecord.id).Nodup ∧
    (∀ r ∈ d.nodes, r.id ≠ maxId) ∧ d.addConnections d.nodesOnly 0 d.connections = .ok g := by
  simp only [toGraph, bind_eq_ok_iff, addRecords_eq_ok_iff, List.not_mem_nil, not_false_eq_true,
    and_true]
  constructor
  · rintro ⟨-, ⟨hnodup, hmax, rfl⟩, hg⟩
    exact ⟨hnodup, hmax, hg⟩
  · rintro ⟨hnodup, hmax, hg⟩
    exact ⟨_, ⟨hnodup, hmax, rfl⟩, hg⟩

/-- A graph can be rebuilt from the legal documents and from no others. -/
theorem exists_toGraph_iff (d : Document) : (∃ g, d.toGraph = .ok g) ↔ d.Legal := by
  simp only [toGraph_eq_ok_iff, exists_and_left]
  constructor
  · rintro ⟨hnodup, hmax, hg⟩
    obtain ⟨hjoins, hlawful⟩ := (hosts_nodesOnly hnodup).addConnections_iff.1 hg
    rw [edgeSet_nodesOnly, bot_sup_eq] at hlawful
    exact ⟨hnodup, hmax, hjoins, hlawful⟩
  · rintro ⟨hnodup, hmax, hjoins, hlawful⟩
    refine ⟨hnodup, hmax, (hosts_nodesOnly hnodup).addConnections_iff.2 ⟨hjoins, ?_⟩⟩
    rwa [edgeSet_nodesOnly, bot_sup_eq]

/-- The rebuilt graph has exactly the listed edges. -/
theorem edgeSet_of_toGraph (h : d.toGraph = .ok g) : g.WellFormed ∧ g.edgeSet = d.edgeSet := by
  obtain ⟨hnodup, -, hg⟩ := toGraph_eq_ok_iff.1 h
  obtain ⟨hhosts, hedges⟩ := (hosts_nodesOnly hnodup).edgeSet_addConnections hg
  rw [edgeSet_nodesOnly, bot_sup_eq] at hedges
  exact ⟨hhosts.wellFormed, hedges⟩

/-! ## Other ways to list the same connections -/

/-- A connection seen from its other end. -/
def Connection.swap (c : Connection) : Connection := ⟨c.target, c.source⟩

/-- The same connections in any order, any number of times, and seen from either end. -/
def SameConnections (cs cs' : List Connection) : Prop :=
  ∀ c, c ∈ cs ∨ c.swap ∈ cs ↔ c ∈ cs' ∨ c.swap ∈ cs'

theorem SameConnections.symm {cs' : List Connection} (h : SameConnections cs cs') :
    SameConnections cs' cs := fun c => (h c).symm

theorem end?_congr (hnodes : d'.nodes = d.nodes) (e : Endpoint) : d'.end? e = d.end? e := by
  rw [end?, end?, hnodes]

theorem Matching.symm {a b : PortRef × Direction} (h : Matching a b) : Matching b a :=
  ⟨h.node_ne.symm, by rw [h.opposite, Direction.opposite_opposite], h.primary.symm⟩

theorem Joins.swap (h : d.Joins c) : d.Joins c.swap := by
  obtain ⟨a, b, ha, hb, hm⟩ := h
  exact ⟨b, a, hb, ha, hm.symm⟩

theorem edgesOf_le {cs' : List Connection} (hnodes : d'.nodes = d.nodes)
    (h : SameConnections cs cs') : d.edgesOf cs ≤ d'.edgesOf cs' := by
  rintro p q ⟨c, hc, a, b, ha, hb, hpq⟩
  rw [← end?_congr hnodes] at ha hb
  rcases (h c).1 (Or.inl hc) with hc | hc
  · exact ⟨c, hc, a, b, ha, hb, hpq⟩
  · exact ⟨c.swap, hc, b, a, hb, ha, by rwa [EdgeSet.between_comm]⟩

theorem edgeSet_congr (hnodes : d'.nodes = d.nodes)
    (h : SameConnections d.connections d'.connections) : d'.edgeSet = d.edgeSet :=
  le_antisymm (edgesOf_le hnodes.symm h.symm) (edgesOf_le hnodes h)

theorem Legal.congr (hlegal : d.Legal) (hnodes : d'.nodes = d.nodes)
    (h : SameConnections d.connections d'.connections) : d'.Legal where
  nodup_ids := by rw [hnodes]; exact hlegal.nodup_ids
  id_ne_max := by rw [hnodes]; exact hlegal.id_ne_max
  joins c hc := by
    have hjoins : d.Joins c := by
      rcases (h c).2 (Or.inl hc) with hc | hc
      · exact hlegal.joins c hc
      · exact (hlegal.joins _ hc).swap
    obtain ⟨a, b, ha, hb, hm⟩ := hjoins
    exact ⟨a, b, by rwa [end?_congr hnodes], by rwa [end?_congr hnodes], hm⟩
  lawful := by rw [edgeSet_congr hnodes h]; exact hlegal.lawful

/-- A graph can be rebuilt from a document exactly if the document is legal.  The graph has the
listed edges, each once, so that nothing depends on the order in which connections are listed, on
the end from which they are seen, or on repetitions. -/
theorem toGraph_ok_iff_legal (d : Document) :
    ((∃ g, d.toGraph = .ok g) ↔ d.Legal) ∧
      (∀ g, d.toGraph = .ok g → ∀ p, (g.peers p).Nodup ∧ ∀ q, q ∈ g.peers p ↔ d.edgeSet p q) ∧
      ∀ d' : Document, d'.nodes = d.nodes → SameConnections d.connections d'.connections →
        ((∃ g', d'.toGraph = .ok g') ↔ ∃ g, d.toGraph = .ok g) ∧
          ∀ g g', d.toGraph = .ok g → d'.toGraph = .ok g' →
            ∀ p q, q ∈ g'.peers p ↔ q ∈ g.peers p := by
  refine ⟨exists_toGraph_iff d, fun g hg p => ?_, fun d' hnodes hsame => ⟨?_, ?_⟩⟩
  · obtain ⟨hw, hedges⟩ := edgeSet_of_toGraph hg
    exact ⟨hw.nodup p, fun q => iff_of_eq (congrFun₂ hedges p q)⟩
  · rw [exists_toGraph_iff, exists_toGraph_iff]
    exact ⟨fun h => h.congr hnodes.symm hsame.symm, fun h => h.congr hnodes hsame⟩
  · intro g g' hg hg' p q
    have hedges : g'.edgeSet = g.edgeSet := by
      rw [(edgeSet_of_toGraph hg').2, (edgeSet_of_toGraph hg).2, edgeSet_congr hnodes hsame]
    exact iff_of_eq (congrFun₂ hedges p q)

end Document

end LayerNet
