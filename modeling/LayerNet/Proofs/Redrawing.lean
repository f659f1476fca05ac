import LayerNet.Proofs.Rebuilding
import LayerNet.Proofs.Specification
import LayerNet.Proofs.Undoing

/-!
# Redrawn networks

A network drawn anew has the same nodes and the same edges, but its edges may have been joined in
another order, and its nodes may carry other labels and stand elsewhere.  `Graph.Redrawn` relates
two such graphs.  Here is what a compiler asks of a graph and finds unchanged: which nodes lead to
which (`Redrawn.mem_reachableFrom_iff`), how many edges arrive (`Redrawn.arrivals_eq`), whether the
network is structured (`Redrawn.structured`), and up to their order the inputs of the network, the
nodes that a node feeds and the wires of special nodes.

In an edited graph every edge may be taken away and joined again, which redraws the network
(`Edited.redrawn_rejoin`).
-/

namespace LayerNet

/-- What a network is made of besides its edges: the special kind of a node and what the layer of
the node takes over. -/
def Node.content (n : Node) : Option SpecialKind × LayerNode :=
  (n.special, ⟨n.id, n.layerType, n.floatParams, n.stringParams⟩)

theorem Node.fields_of_content_eq {n n' : Node} (h : n'.content = n.content) :
    n'.special = n.special ∧ n'.id = n.id ∧ n'.layerType = n.layerType ∧
      n'.floatParams = n.floatParams ∧ n'.stringParams = n.stringParams := by
  simpa [content] using h

/-- Without repetitions, the order of a list does not matter. -/
theorem eraseDups_perm {l m : List NodeId} (h : l.Perm m) : l.eraseDups.Perm m.eraseDups := by
  refine (List.perm_ext_iff_of_nodup (nodup_eraseDups l) (nodup_eraseDups m)).2 fun x => ?_
  rw [List.mem_eraseDups, List.mem_eraseDups, h.mem_iff]

namespace Graph

open Relation Expander

variable {g g' : Graph} {a b id : NodeId} {n n' : Node} {stop : Option NodeId}

/-- The same layer types, the same nodes but for labels and positions, and the same edges in any
order. -/
structure Redrawn (g g' : Graph) : Prop where
  catalog : g'.catalog = g.catalog
  nodes : ∀ id, (g'.node? id).map Node.content = (g.node? id).map Node.content
  edges : g'.edgeSet = g.edgeSet

theorem Redrawn.symm (h : g.Redrawn g') : g'.Redrawn g where
  catalog := h.catalog.symm
  nodes id := (h.nodes id).symm
  edges := h.edges.symm

theorem Redrawn.trans {g'' : Graph} (h : g.Redrawn g') (h' : g'.Redrawn g'') : g.Redrawn g'' where
  catalog := h'.catalog.trans h.catalog
  nodes id := (h'.nodes id).trans (h.nodes id)
  edges := h'.edges.trans h.edges

/-- Edges in another order are a drawing with the same labels and positions. -/
theorem Alike.redrawn (h : g.Alike g') : g.Redrawn g' where
  catalog := h.catalog
  nodes id := h.map_node?_eq (fun _ => rfl) id
  edges := h.edgeSet_eq

/-! ## Nodes -/

theorem Redrawn.exists_node? (h : g.Redrawn g') (hn : g.node? id = some n) :
    ∃ n', g'.node? id = some n' ∧ n'.content = n.content := by
  have hcontent := h.nodes id
  rw [hn, Option.map_some, Option.map_eq_some_iff] at hcontent
  exact hcontent

theorem Redrawn.node?_eq_none (h : g.Redrawn g') (hn : g.node? id = none) : g'.node? id = none := by
  simpa [hn] using h.nodes id

theorem Redrawn.ids_eq (h : g.Redrawn g') : g'.ids = g.ids := by
  refine Keyed.eq_of_mem_iff g'.sorted_ids g.sorted_ids fun id => ?_
  have hsome := congrArg Option.isSome (h.nodes id)
  rw [Option.isSome_map, Option.isSome_map] at hsome
  rw [mem_ids, mem_ids, hsome]

theorem Redrawn.size_eq (h : g.Redrawn g') : g'.size = g.size := by
  rw [← length_ids, h.ids_eq, length_ids]

theorem Redrawn.isMerge_eq (h : g.Redrawn g') (hcontent : n'.content = n.content) :
    g'.catalog.isMerge n'.layerType = g.catalog.isMerge n.layerType := by
  obtain ⟨-, -, htype, -⟩ := Node.fields_of_content_eq hcontent
  rw [h.catalog, htype]

theorem Redrawn.groupAt_eq (h : g.Redrawn g') (config : CompilerConfig) (point : NodeId)
    (branches : List Layer) :
    g'.groupAt config point branches = g.groupAt config point branches := by
  refine groupAt_congr h.catalog ?_ config branches
  have hcontent := congrArg (Option.map fun c => (c.2.layerType, c.2.stringParams)) (h.nodes point)
  rwa [Option.map_map, Option.map_map] at hcontent

/-! ## Edges -/

theorem Redrawn.peers_perm (h : g.Redrawn g') (hg : g.WellFormed) (hg' : g'.WellFormed)
    (p : PortRef) : (g.peers p).Perm (g'.peers p) :=
  (List.perm_ext_iff_of_nodup (hg.nodup p) (hg'.nodup p)).2 fun q =>
    iff_of_eq (congrFun₂ h.edges p q).symm

theorem Redrawn.flows_iff (h : g.Redrawn g') : g'.Flows a b ↔ g.Flows a b := by
  rw [← edgeSet_flows_iff, ← edgeSet_flows_iff, h.edges]

theorem Redrawn.leads (h : g.Redrawn g') (hab : g.Leads stop a b) : g'.Leads stop a b := by
  refine hab.induction (.refl hab.start_ne_stop) fun x y _ hx hxy hy => ?_
  exact hx.tail (h.flows_iff.2 hxy) hy

theorem Redrawn.mem_reachableFrom_iff (h : g.Redrawn g') :
    b ∈ g'.reachableFrom a stop ↔ b ∈ g.reachableFrom a stop := by
  rw [mem_reachableFrom, mem_reachableFrom]
  exact ⟨h.symm.leads, h.leads⟩

theorem Redrawn.successors_perm (h : g.Redrawn g') (id : NodeId) :
    (g.successors id).Perm (g'.successors id) :=
  (List.perm_ext_iff_of_nodup (g.nodup_successors id) (g'.nodup_successors id)).2 fun _ =>
    h.flows_iff.symm

theorem Redrawn.length_predecessors_eq (h : g.Redrawn g') (hg : g.WellFormed)
    (hg' : g'.WellFormed) (id : NodeId) :
    (g'.predecessors id).length = (g.predecessors id).length :=
  length_predecessors_congr (h.peers_perm hg hg' _).symm

theorem Redrawn.arrivals_eq (h : g.Redrawn g') (hg : g.WellFormed) (hg' : g'.WellFormed)
    (point : NodeId) : g'.arrivals point = g.arrivals point :=
  arrivals_congr (h.peers_perm hg hg' _).symm

/-! ## The structure of the network -/

theorem Redrawn.structured (h : g.Redrawn g') (hs : g.Structured) : g'.Structured where
  joined := by
    rw [h.ids_eq, h.edges]
    exact hs.joined
  begins := by
    rw [h.edges]
    exact hs.begins
  ends := by
    rw [h.edges]
    exact hs.ends
  arrives := by
    rw [h.edges]
    exact hs.arrives
  merges := by
    intro id n' hn' p q hp hq hne
    obtain ⟨n, hn, hcontent⟩ := h.symm.exists_node? hn'
    rw [h.edges] at hp hq
    rw [← h.symm.isMerge_eq hcontent]
    exact hs.merges id n hn p q hp hq hne
  single := by
    rw [h.edges]
    exact hs.single
  passed := by
    rw [h.edges]
    exact hs.passed
  enclosed := by
    rw [h.edges]
    exact hs.enclosed

/-- A network is refused for its structure in every drawing or in none. -/
theorem Redrawn.hasErrors_eq_false (h : g.Redrawn g') (hg : g.WellFormed) (hg' : g'.WellFormed)
    (hreport : g.validate.hasErrors = false) : g'.validate.hasErrors = false := by
  rw [hasErrors_validate, hg.findings_eq_nil_iff_structured] at hreport
  rw [hasErrors_validate, hg'.findings_eq_nil_iff_structured]
  exact h.structured hreport

theorem Redrawn.realInputs_perm (h : g.Redrawn g') (hg : g.WellFormed) (hg' : g'.WellFormed) :
    g.realInputs.Perm g'.realInputs := by
  refine (List.perm_ext_iff_of_nodup g.nodup_realInputs g'.nodup_realInputs).2 fun id => ?_
  rw [hg.mem_realInputs_iff, hg'.mem_realInputs_iff, h.edges]

/-! ## The wires of special nodes -/

theorem Redrawn.auxLinks_perm (h : g.Redrawn g') (hg : g.WellFormed) (hg' : g'.WellFormed)
    (hn : g.node? id = some n) (hn' : g'.node? id = some n') (hcontent : n'.content = n.content) :
    (auxLinks n).Perm (auxLinks n') := by
  rw [hg.auxLinks_eq hn, hg'.auxLinks_eq hn', (Node.fields_of_content_eq hcontent).1]
  refine List.Perm.flatMap_left _ fun port _ => ?_
  exact ((h.peers_perm hg hg' _).map PortRef.node).map _

theorem Redrawn.auxHeads_perm (h : g.Redrawn g') (hg : g.WellFormed) (hg' : g'.WellFormed)
    (hn : g.node? id = some n) (hn' : g'.node? id = some n') (hcontent : n'.content = n.content) :
    (auxHeads n).Perm (auxHeads n') :=
  eraseDups_perm (((h.auxLinks_perm hg hg' hn hn' hcontent).filter _).map _)

/-! ## An edge drawn again -/

/-- The edge between two ports drawn again, as the last one of each of them. -/
def rejoin (g : Graph) (p q : PortRef) : Graph := ((g.disconnect p q).connect p q).1

variable {p q : PortRef}

theorem Edited.rejoin (hg : g.Edited) (p q : PortRef) : (g.rejoin p q).Edited :=
  .connect p q (.disconnect p q hg)

/-- In an edited graph an edge may be drawn again. -/
theorem Edited.redrawn_rejoin (hg : g.Edited) (hpq : q ∈ g.peers p) :
    g.Redrawn (g.rejoin p q) :=
  (hg.alike_rejoined hpq).redrawn

end Graph

end LayerNet
