import LayerNet.Proofs.Lawful

/-!
# Graphs that differ in the order of their edges

Edges that are made in another order leave the same edges behind, but the ports may list their peers
in another order.  `Graph.Alike` relates two graphs with the same nodes and the same edges.  What
special nodes capture (`Alike.subgraph_eq`) and the whole report on the structure of a network
(`Alike.findings_eq`) do not depend on the order.
-/

namespace LayerNet

/-- A node without the state of its ports. -/
def Node.bare (n : Node) : Node := n.mapPorts fun _ => {}

theorem Node.fields_of_bare_eq {n n' : Node} (h : n'.bare = n.bare) :
    n'.id = n.id ∧ n'.layerType = n.layerType ∧ n'.label = n.label ∧ n'.position = n.position ∧
      n'.stringParams = n.stringParams ∧ n'.floatParams = n.floatParams ∧ n'.special = n.special :=
  ⟨(congrArg Node.id h :), (congrArg Node.layerType h :), (congrArg Node.label h :),
    (congrArg Node.position h :), (congrArg Node.stringParams h :),
    (congrArg Node.floatParams h :), (congrArg Node.special h :)⟩

@[simp] theorem Node.bare_modifyPort (n : Node) (slot : Slot) (f : Port → Port) :
    (n.modifyPort slot f).bare = n.bare := by
  cases slot <;> simp [bare, mapPorts, modifyPort, List.map_const']

/-- A set of ids has the ids of the list that it is made of. -/
theorem get?_ofList (l : List NodeId) (k : NodeId) :
    (Keyed.ofList l : IdSet).get? k = if k ∈ l then some k else none := by
  have hgeneral : ∀ (l : List NodeId) (t : IdSet),
      (l.foldl (fun t x => t.insert x) t).get? k = if k ∈ l then some k else t.get? k := by
    intro l
    induction l with
    | nil => simp
    | cons x l ih =>
      intro t
      rw [List.foldl_cons, ih, Keyed.get?_insert]
      by_cases hl : k ∈ l
      · simp [hl]
      · by_cases hx : k = x
        · simp [hx]
        · simp [hl, hx]
  exact hgeneral l Keyed.empty

theorem ofList_eq_of_mem_iff {l l' : List NodeId} (h : ∀ k, k ∈ l ↔ k ∈ l') :
    (Keyed.ofList l : IdSet) = Keyed.ofList l' :=
  Keyed.ext_get? fun k => by simp only [get?_ofList, h]

namespace Graph

variable {g g' : Graph} {p q : PortRef} {s x y id : NodeId} {n n' : Node}

theorem node?_bare_modifyPort (g : Graph) (p : PortRef) (f : Port → Port) (id : NodeId) :
    ((g.modifyPort p f).node? id).map Node.bare = (g.node? id).map Node.bare := by
  rw [modifyPort, node?_modifyNode]
  split
  · simp [Function.comp_def]
  · rfl

theorem node?_bare_link (g : Graph) (a b : PortRef) (id : NodeId) :
    ((g.link a b).node? id).map Node.bare = (g.node? id).map Node.bare := by
  rw [link, node?_bare_modifyPort, node?_bare_modifyPort]

theorem node?_bare_unlink (g : Graph) (a b : PortRef) (id : NodeId) :
    ((g.unlink a b).node? id).map Node.bare = (g.node? id).map Node.bare := by
  rw [unlink, node?_bare_modifyPort, node?_bare_modifyPort]

theorem node?_bare_connect (g : Graph) (a b : PortRef) (id : NodeId) :
    ((g.connect a b).1.node? id).map Node.bare = (g.node? id).map Node.bare := by
  rcases connect_cases g a b with h | ⟨h, -⟩
  · rw [h]
  · rw [h, node?_bare_link]

/-- The same nodes and the same edges, whose order may differ from port to port. -/
structure Alike (g g' : Graph) : Prop where
  catalog : g'.catalog = g.catalog
  nodes : ∀ id, (g'.node? id).map Node.bare = (g.node? id).map Node.bare
  peers : ∀ p, (g'.peers p).Perm (g.peers p)

/-! ## Nodes -/

theorem Alike.bare_eq (h : g.Alike g') (hn : g.node? id = some n) (hn' : g'.node? id = some n') :
    n'.bare = n.bare := by
  have hbare := h.nodes id
  rw [hn, hn', Option.map_some, Option.map_some] at hbare
  exact Option.some.inj hbare

theorem Alike.exists_node? (h : g.Alike g') (hn : g.node? id = some n) :
    ∃ n', g'.node? id = some n' ∧ n'.bare = n.bare := by
  have hbare := h.nodes id
  rw [hn, Option.map_some, Option.map_eq_some_iff] at hbare
  exact hbare

theorem Alike.node?_eq_none (h : g.Alike g') (hn : g.node? id = none) : g'.node? id = none := by
  simpa [hn] using h.nodes id

/-- What does not depend on the ports of a node is the same. -/
theorem Alike.map_node?_eq (h : g.Alike g') {β : Type} {f : Node → β} (hf : ∀ n, f n.bare = f n)
    (id : NodeId) : (g'.node? id).map f = (g.node? id).map f := by
  have hbare : ∀ g : Graph, (g.node? id).map f = ((g.node? id).map Node.bare).map f := by
    intro g
    rw [Option.map_map]
    exact congrArg (Option.map · _) (funext fun n => (hf n).symm)
  rw [hbare, hbare, h.nodes]

theorem Alike.kind?_eq (h : g.Alike g') (id : NodeId) : g'.kind? id = g.kind? id :=
  h.map_node?_eq (fun _ => rfl) id

theorem Alike.ids_eq (h : g.Alike g') : g'.ids = g.ids := ids_eq_of_kind? h.kind?_eq

theorem Alike.label_eq (h : g.Alike g') (id : NodeId) : g'.label id = g.label id := by
  have hlabel : ∀ g : Graph, g.label id = ((g.node? id).map Node.label).getD s!"#{id}" := by
    intro g
    rw [label]
    cases g.node? id <;> rfl
  rw [hlabel, hlabel, h.map_node?_eq fun _ => rfl]

/-- Whatever is read off the nodes one after the other is read off them by their ids. -/
theorem flatMap_nodes {β : Type} (g : Graph) (f : Node → List β) :
    g.nodes.toList.flatMap f = g.ids.flatMap fun id => (g.node? id).toList.flatMap f := by
  rw [ids, Keyed.keys, List.flatMap_map]
  refine List.flatMap_congr fun n hn => ?_
  rw [mem_nodes_iff.1 hn]
  simp

theorem Alike.flatMap_nodes (h : g.Alike g') {β : Type} {f f' : Node → List β}
    (hf : ∀ id n n', g.node? id = some n → g'.node? id = some n' → f' n' = f n) :
    g'.nodes.toList.flatMap f' = g.nodes.toList.flatMap f := by
  rw [Graph.flatMap_nodes, Graph.flatMap_nodes, h.ids_eq]
  refine List.flatMap_congr fun id hid => ?_
  obtain ⟨n, hn⟩ := Graph.exists_node? hid
  obtain ⟨n', hn', -⟩ := h.exists_node? hn
  simp [hn, hn', hf id n n' hn hn']

theorem filter_flatMap_eq {α β : Type} (p : α → Bool) (f : α → List β) (l : List α) :
    (l.filter p).flatMap f = l.flatMap fun a => if p a then f a else [] := by
  induction l with
  | nil => rfl
  | cons a l ih => by_cases ha : p a = true <;> simp [ha, ih]

theorem Alike.flatMap_filter_nodes (h : g.Alike g') {β : Type} {p p' : Node → Bool}
    {f f' : Node → List β}
    (hf : ∀ id n n', g.node? id = some n → g'.node? id = some n' → p' n' = p n ∧ f' n' = f n) :
    (g'.nodes.toList.filter p').flatMap f' = (g.nodes.toList.filter p).flatMap f := by
  rw [filter_flatMap_eq, filter_flatMap_eq]
  refine h.flatMap_nodes fun id n n' hn hn' => ?_
  rw [(hf id n n' hn hn').1, (hf id n n' hn hn').2]

theorem Alike.map_filter_nodes (h : g.Alike g') {β : Type} {p p' : Node → Bool} {f f' : Node → β}
    (hf : ∀ id n n', g.node? id = some n → g'.node? id = some n' → p' n' = p n ∧ f' n' = f n) :
    (g'.nodes.toList.filter p').map f' = (g.nodes.toList.filter p).map f := by
  rw [List.map_eq_flatMap, List.map_eq_flatMap]
  refine h.flatMap_filter_nodes fun id n n' hn hn' => ?_
  exact ⟨(hf id n n' hn hn').1, by rw [(hf id n n' hn hn').2]⟩

/-! ## Edges -/

theorem Alike.edgeSet_eq (h : g.Alike g') : g'.edgeSet = g.edgeSet := by
  funext p q
  exact propext (h.peers p).mem_iff

theorem Alike.flows_iff (h : g.Alike g') : g'.Flows x y ↔ g.Flows x y := by
  rw [← edgeSet_flows_iff, ← edgeSet_flows_iff, h.edgeSet_eq]

theorem Alike.hasConnections_eq (h : g.Alike g') (hn : g.node? id = some n)
    (hn' : g'.node? id = some n') : n'.hasConnections = n.hasConnections := by
  rw [Bool.eq_iff_iff, hasConnections_iff hn, hasConnections_iff hn']
  refine exists_congr fun slot => not_congr ?_
  rw [← List.isEmpty_iff, (h.peers _).isEmpty_eq, List.isEmpty_iff]

theorem Alike.input_perm (h : g.Alike g') (hn : g.node? id = some n) (hn' : g'.node? id = some n') :
    n'.input.peers.Perm n.input.peers := by
  rw [← peers_input hn, ← peers_input hn']
  exact h.peers _

theorem Alike.output_perm (h : g.Alike g') (hn : g.node? id = some n)
    (hn' : g'.node? id = some n') : n'.output.peers.Perm n.output.peers := by
  rw [← peers_output hn, ← peers_output hn']
  exact h.peers _

theorem isConnected_eq {port port' : Port} (h : port'.peers.Perm port.peers) :
    port'.isConnected = port.isConnected := by
  rw [Port.isConnected, Port.isConnected, h.isEmpty_eq]

/-! ## What special nodes capture -/

theorem Alike.subgraph_eq (h : g.Alike g') (hg : g.WellFormed) (hg' : g'.WellFormed) (s : NodeId) :
    g'.subgraph s = g.subgraph s := by
  have hsorted : ∀ g : Graph, (g.subgraph s).Pairwise fun x y => id x < id y := fun g =>
    g.sorted_ids.filter _
  refine Keyed.eq_of_mem_iff (hsorted g') (hsorted g) fun x => ?_
  rw [← hg.captures_iff, ← hg'.captures_iff, h.edgeSet_eq]

theorem Alike.membership_eq (h : g.Alike g') (hg : g.WellFormed) (hg' : g'.WellFormed) :
    g'.membership = g.membership :=
  Wiring.membership_congr h.kind?_eq (h.subgraph_eq hg hg')

/-! ## The report on the structure -/

theorem Alike.realInputs_eq (h : g.Alike g') (hg : g.WellFormed) (hg' : g'.WellFormed) :
    g'.realInputs = g.realInputs := by
  rw [realInputs, realInputs, h.membership_eq hg hg']
  refine h.map_filter_nodes fun id n n' hn hn' => ?_
  have hid : n'.id = n.id := (id_of_node? hn').trans (id_of_node? hn).symm
  rw [h.hasConnections_eq hn hn', isConnected_eq (h.input_perm hn hn'), hid]
  exact ⟨rfl, rfl⟩

theorem Alike.realOutputs_eq (h : g.Alike g') (hg : g.WellFormed) (hg' : g'.WellFormed) :
    g'.realOutputs = g.realOutputs := by
  rw [realOutputs, realOutputs, h.membership_eq hg hg']
  refine h.map_filter_nodes fun id n n' hn hn' => ?_
  have hid : n'.id = n.id := (id_of_node? hn').trans (id_of_node? hn).symm
  rw [h.hasConnections_eq hn hn', isConnected_eq (h.output_perm hn hn'), hid]
  exact ⟨rfl, rfl⟩

theorem Alike.reachesAny_eq (h : g.Alike g') (goals : List NodeId) :
    g'.reachesAny x goals = g.reachesAny x goals := by
  have hflows : g'.Flows = g.Flows := by
    funext x y
    exact propext h.flows_iff
  rw [Bool.eq_iff_iff, reachesAny_iff, reachesAny_iff, hflows]

theorem Alike.disconnectedNodes_eq (h : g.Alike g') :
    g'.disconnectedNodes = g.disconnectedNodes := by
  refine h.map_filter_nodes fun id n n' hn hn' => ?_
  obtain ⟨hid, -, hlabel, -⟩ := Node.fields_of_bare_eq (h.bare_eq hn hn')
  rw [h.hasConnections_eq hn hn', hid, hlabel]
  exact ⟨rfl, rfl⟩

theorem Alike.endFindings_eq (h : g.Alike g') (hg : g.WellFormed) (hg' : g'.WellFormed) :
    g'.endFindings = g.endFindings := by
  simp only [endFindings, h.realInputs_eq hg hg', h.realOutputs_eq hg hg', h.reachesAny_eq,
    h.label_eq]

theorem Alike.unmergedNodes_eq (h : g.Alike g') : g'.unmergedNodes = g.unmergedNodes := by
  refine h.map_filter_nodes fun id n n' hn hn' => ?_
  obtain ⟨hid, htype, hlabel, -⟩ := Node.fields_of_bare_eq (h.bare_eq hn hn')
  rw [(h.input_perm hn hn').length_eq, hid, hlabel, htype, h.catalog]
  exact ⟨rfl, rfl⟩

theorem Alike.sharedNodes_eq (h : g.Alike g') (hg : g.WellFormed) (hg' : g'.WellFormed) :
    g'.sharedNodes = g.sharedNodes := by
  have hlabel : g'.label = g.label := funext h.label_eq
  rw [sharedNodes, sharedNodes, h.membership_eq hg hg', hlabel]

/-- The peers outside a subgraph are named in the order of their ids. -/
theorem Alike.memberFindings_eq (h : g.Alike g') {special special' : Node}
    (hspecial : special'.bare = special.bare) (members : List NodeId) (id : NodeId) :
    g'.memberFindings special' members id = g.memberFindings special members id := by
  rw [memberFindings, memberFindings]
  cases hn : g.node? id with
  | none => rw [h.node?_eq_none hn]
  | some n =>
    obtain ⟨n', hn', hbare⟩ := h.exists_node? hn
    obtain ⟨-, -, hlabel, -⟩ := Node.fields_of_bare_eq hbare
    obtain ⟨hid, -, howner, -⟩ := Node.fields_of_bare_eq hspecial
    have hinput := h.input_perm hn hn'
    have houtput := h.output_perm hn hn'
    have houtside := ofList_eq_of_mem_iff fun k =>
      (((hinput.append houtput).filter fun peer => !isInside special.id members peer).map
        PortRef.node).mem_iff (a := k)
    simp only [hn', hlabel, hid, howner, isConnected_eq hinput, isConnected_eq houtput, houtside,
      h.label_eq]

theorem Alike.subgraphFindings_eq (h : g.Alike g') (hg : g.WellFormed) (hg' : g'.WellFormed) :
    g'.subgraphFindings = g.subgraphFindings := by
  refine h.flatMap_filter_nodes fun id n n' hn hn' => ?_
  have hbare := h.bare_eq hn hn'
  obtain ⟨hid, -, -, -, -, -, hspecial⟩ := Node.fields_of_bare_eq hbare
  refine ⟨by rw [Node.isSpecial, Node.isSpecial, hspecial], ?_⟩
  simp only [hid, h.subgraph_eq hg hg', h.memberFindings_eq hbare]

/-- What is wrong with a network does not depend on the order of its edges. -/
theorem Alike.findings_eq (h : g.Alike g') (hg : g.WellFormed) (hg' : g'.WellFormed) :
    g'.findings = g.findings := by
  rw [findings, findings, h.disconnectedNodes_eq, h.endFindings_eq hg hg', h.unmergedNodes_eq,
    h.sharedNodes_eq hg hg', h.subgraphFindings_eq hg hg']

theorem Alike.validate_eq (h : g.Alike g') (hg : g.WellFormed) (hg' : g'.WellFormed) :
    g'.validate = g.validate := by
  rw [validate, validate, h.findings_eq hg hg']

end Graph

end LayerNet
