import LayerNet.Proofs.Rounds

/-!
# Expansion is faithful

Each level of expansion keeps the contract of an expander (`Faithful.deeper`), and so does the
expander of a network without findings (`faithful_expander`).  The main result is
`Graph.expands_of_compile`: a compiled forest stands for the edges out of the nodes that it places,
places no node twice, and puts into the layer of a special node what its auxiliary outputs lead to.
-/

namespace LayerNet.Graph

open Layer Expander Expansion

variable {g : Graph} {config : CompilerConfig} {below : Expander}
  {s t u roots fresh : List NodeId} {stop exit : Option NodeId} {layers : List Layer}
  {chains : List (List Layer)} {id a : NodeId} {n : Node}

/-! ## Several heads -/

/-- What accounts for plain heads is an expansion from them. -/
theorem Grows.expands
    (h : g.Grows roots (roots.map fun id => Head.tally ⟨id, none⟩) fresh s [.ofChain exit layers] t) :
    g.Expands roots exit s layers t := by
  have houter : (forestOuterIds layers).Perm fresh := by
    simpa [Tally.ofChain, Head.tally, List.flatMap_map] using h.outer
  refine ⟨⟨fun source => ?_, fun x hx => h.reached x (houter.mem_iff.1 hx)⟩, ?_, fun site hsite => ?_⟩
  · have hedges := h.edges source
    simp only [Tally.ofChain, Head.tally, List.flatMap_map, List.flatMap_cons, List.flatMap_nil,
      List.append_nil] at hedges
    exact hedges.trans ((houter.symm.flatMap_right _).append_left _)
  · obtain ⟨ids, hids, hplaced⟩ := h.placed
    refine hids.of_perm ?_
    simpa [Tally.ofChain, Head.tally, List.flatMap_map] using hplaced.symm
  · have hold := h.settled site (by simpa [Tally.ofChain] using hsite)
    simpa [Head.tally, List.flatMap_map] using hold

/-- Without any chains there are no layers. -/
theorem Grows.no_chains {xs : List Tally} (h : g.Grows roots xs fresh s [] t) :
    g.Grows roots xs fresh s [.ofChain none []] t where
  outer := h.outer
  edges source := by simpa [Tally.ofChain, forestEdges, forestLast] using h.edges source
  reached := h.reached
  placed := h.placed
  settled := h.settled

/-- Chains that end nowhere count as the branches of a group without a merging node. -/
theorem Grows.apart {xs : List Tally} (r : Reduction)
    (h : g.Grows roots xs fresh s (chains.map (.ofChain none)) t) :
    g.Grows roots xs fresh s [.ofChain none [.parallel r none (chains.map asBranch)]] t := by
  constructor
  · simpa [Tally.ofChain, List.flatMap_map, forestOuterIds, outerIds] using h.outer
  · intro source
    simpa [Tally.ofChain, List.flatMap_map, forestEdges, Layer.edges, forestLast] using
      h.edges source
  · exact h.reached
  · simpa [Tally.ofChain, List.flatMap_map, forestPlacements, placements] using h.placed
  · simpa [Tally.ofChain, List.flatMap_map, forestSites, sites] using h.settled

theorem Faithful.mergeHeads (hb : g.Faithful below) (hw : g.WellFormed) (hs : g.Sound)
    (hids : ∀ id ∈ roots, id ∈ g.ids) (hstop : ∀ id ∈ roots, some id ≠ stop)
    (run : (below.mergeHeads g config roots stop).Gives s layers t) :
    ∃ exit, (exit = none ∨ exit = stop) ∧ g.Expands roots exit s layers t := by
  obtain ⟨chains, hconverge, hlayers⟩ := gives_mergeHeads_iff.1 run
  obtain ⟨hne, hgrows⟩ := hb.converge hw hs hids hstop hconverge
  have hfull : (chains.filter fun chain => !chain.isEmpty) = chains :=
    List.filter_eq_self.2 fun chain hchain => by simpa using hne chain hchain
  rw [hfull] at hlayers
  rcases hlayers with ⟨rfl, rfl⟩ | rfl | ⟨-, rfl, rfl⟩
  · obtain ⟨exit, fresh, hexit, hgrows⟩ := hgrows (Or.inr (Nat.zero_le 1))
    exact ⟨none, Or.inl rfl, hgrows.no_chains.expands⟩
  · obtain ⟨exit, fresh, hexit, hgrows⟩ := hgrows (Or.inr (Nat.le_refl 1))
    exact ⟨exit, hexit, hgrows.expands⟩
  · obtain ⟨exit, fresh, hexit, hgrows⟩ := hgrows (Or.inl rfl)
    have hnone : exit = none := or_self_iff.1 hexit
    subst hnone
    exact ⟨none, Or.inl rfl, (hgrows.apart config.defaultReduction).expands⟩

theorem Faithful.heads (hb : g.Faithful below) (hw : g.WellFormed) (hs : g.Sound)
    (hids : ∀ id ∈ roots, id ∈ g.ids) (hstop : ∀ id ∈ roots, some id ≠ stop)
    (run : (below.heads g config roots stop).Gives s layers t) :
    ∃ exit, (exit = none ∨ exit = stop) ∧ g.Expands roots exit s layers t := by
  match roots with
  | [] =>
    obtain ⟨rfl, rfl⟩ := gives_heads_nil_iff.1 run
    exact ⟨none, Or.inl rfl, g.expands_nil none t⟩
  | [head] =>
    obtain ⟨-, hexpands⟩ := hb.node (hids head (List.mem_singleton_self head))
      (hstop head (List.mem_singleton_self head)) (gives_heads_single_iff.1 run)
    exact hexpands
  | _ :: _ :: _ => exact hb.mergeHeads hw hs hids hstop ((gives_heads_iff (by simp)).1 run)

/-! ## From a node on -/

/-- What follows a node, up to the node at which its branch ends. -/
theorem Faithful.successors (hb : g.Faithful below) (hw : g.WellFormed) (hs : g.Sound)
    (run : (below.successors g config id stop).Gives s layers t) :
    ∃ exit, (exit = none ∨ exit = stop) ∧ g.Expands (g.successors id) exit s layers t := by
  obtain ⟨hall, run⟩ := gives_successors_iff.1 run
  have hids : ∀ b ∈ g.successors id, b ∈ g.ids := fun b hb => hw.flows_mem_ids hb
  have hwhole : (g.successors id).filter (fun b => some b ≠ stop) = g.successors id →
      ∃ exit, (exit = none ∨ exit = stop) ∧ g.Expands (g.successors id) exit s layers t := by
    intro he
    rw [he] at run
    exact hb.heads hw hs hids (fun b hb => by simpa using List.filter_eq_self.1 he b hb) run
  rcases hall with rfl | hnil | hall
  · exact hwhole (by simp)
  · -- the node feeds nothing but the stop
    rw [hnil] at run
    obtain ⟨rfl, rfl⟩ := gives_heads_nil_iff.1 run
    have honly : ∀ b ∈ g.successors id, some b = stop := fun b hb => by
      simpa using List.filter_eq_nil_iff.1 hnil b hb
    cases hlist : g.successors id with
    | nil => exact ⟨none, Or.inl rfl, g.expands_nil none t⟩
    | cons b rest =>
      have hb := honly b (by simp [hlist])
      have hrest : rest = [] := by
        refine List.eq_nil_iff_forall_not_mem.2 ?_
        intro c hc
        have hc' := honly c (by simp [hlist, hc])
        have hnodup := g.nodup_successors id
        rw [hlist, List.nodup_cons] at hnodup
        rw [Option.some.inj (hb.trans hc'.symm)] at hnodup
        exact hnodup.1 hc
      subst hrest hb
      exact ⟨some b, Or.inr rfl, g.expands_nil (some b) t⟩
  · exact hwhole hall

/-! ## Subgraphs -/

/-- The heads of a subgraph are the nodes that the auxiliary outputs feed. -/
theorem WellFormed.mem_auxHeads (hw : g.WellFormed) (hn : g.node? id = some n) :
    a ∈ auxHeads n ↔ g.Enters id a := by
  have hpeers : ∀ {i : Nat} {port : Port}, n.aux[i]? = some port →
      g.peers (.aux id i) = port.peers := by
    intro i port hport
    simp [peers, port?, PortRef.aux, hn, Node.port?, hport]
  have hdir : ∀ {i : Nat}, g.direction? (.aux id i) =
      (auxLayout n.special)[i]?.map AuxPort.direction := by
    intro i
    simp [direction?, PortRef.aux, hn, Node.direction?]
  rw [← hw.mem_auxPeers_output, mem_auxPeers, auxHeads, List.mem_eraseDups]
  simp only [auxLinks, List.mem_map, List.mem_filter, List.mem_flatMap, Prod.exists,
    List.mem_zipIdx_iff_getElem?, List.getElem?_zip_eq_some, decide_eq_true_eq]
  constructor
  · rintro ⟨-, link, ⟨⟨spec, port, i, ⟨hspec, hport⟩, peer, ⟨hpeer, hslot⟩, he⟩, rfl⟩, rfl⟩
    obtain ⟨hout, rfl⟩ := Prod.mk.inj he
    exact ⟨i, peer.slot, hpeers hport ▸ hpeer, hslot, by rw [hdir, hspec, Option.map_some, hout]⟩
  · rintro ⟨i, slot, hpeer, hslot, hd⟩
    rw [hdir, Option.map_eq_some_iff] at hd
    obtain ⟨spec, hspec, hout⟩ := hd
    have hi : i < n.aux.length := by
      rw [n.aux_length]
      exact (List.getElem?_eq_some_iff.1 hspec).1
    have hport := List.getElem?_eq_getElem hi
    rw [hpeers hport] at hpeer
    exact ⟨_, _, ⟨⟨spec, _, i, ⟨hspec, hport⟩, _, ⟨hpeer, hslot⟩, rfl⟩, hout⟩, rfl⟩

theorem forestOuterIds_flatten (chains : List (List Layer)) :
    forestOuterIds chains.flatten = chains.flatMap forestOuterIds := by
  induction chains with
  | nil => rfl
  | cons chain rest ih =>
    rw [forestOuterIds_eq, List.flatten_cons, List.flatMap_append, ← forestOuterIds_eq,
      ← forestOuterIds_eq, ih, List.flatMap_cons]

theorem forestPlacements_flatten (chains : List (List Layer)) :
    forestPlacements chains.flatten = chains.flatMap forestPlacements := by
  induction chains with
  | nil => rfl
  | cons chain rest ih =>
    rw [forestPlacements_eq, List.flatten_cons, List.flatMap_append, ← forestPlacements_eq,
      ← forestPlacements_eq, ih, List.flatMap_cons]

theorem forestSites_flatten (chains : List (List Layer)) :
    forestSites chains.flatten = chains.flatMap forestSites := by
  induction chains with
  | nil => rfl
  | cons chain rest ih =>
    rw [forestSites_eq, List.flatten_cons, List.flatMap_append, ← forestSites_eq,
      ← forestSites_eq, ih, List.flatMap_cons]

/-- The subgraph of a special node: what its auxiliary outputs lead to, placed once. -/
theorem Faithful.subgraph {inner : List Layer} {links : List AuxLink} (hb : g.Faithful below)
    (hw : g.WellFormed) (hs : g.Sound) (hn : g.node? id = some n)
    (run : (below.subgraph g config n).Gives s (inner, links) t) :
    Adds s (forestPlacements inner) t ∧ g.Settled (id, some inner) ∧
      ∀ site ∈ forestSites inner, g.Settled site := by
  have hids : ∀ a ∈ auxHeads n, a ∈ g.ids := by
    intro a ha
    obtain ⟨i, hi⟩ := (hw.mem_auxHeads hn).1 ha
    exact hw.peer_mem_ids hi
  -- chains that stay apart count like the branches of one group
  obtain ⟨layers, hexpands, houter, hplaced, hsites⟩ : ∃ layers,
      g.Expands (auxHeads n) none s layers t ∧ forestOuterIds inner = forestOuterIds layers ∧
        forestPlacements inner = forestPlacements layers ∧
        forestSites inner = forestSites layers := by
    obtain ⟨-, ⟨-, chains, hchains, rfl⟩ | ⟨-, hheads⟩⟩ := gives_subgraph_iff.1 run
    · obtain ⟨-, hgrows⟩ := hb.converge hw hs hids (by simp) hchains
      obtain ⟨exit, fresh, hexit, hgrows⟩ := hgrows (Or.inl rfl)
      have hnone : exit = none := or_self_iff.1 hexit
      subst hnone
      refine ⟨_, (hgrows.apart config.defaultReduction).expands, ?_, ?_, ?_⟩
      · simp [forestOuterIds_flatten, forestOuterIds, outerIds]
      · simp [forestPlacements_flatten, forestPlacements, placements]
      · simp [forestSites_flatten, forestSites, sites]
    · obtain ⟨exit, hexit, hexpands⟩ := hb.heads hw hs hids (by simp) hheads
      have hnone : exit = none := or_self_iff.1 hexit
      subst hnone
      exact ⟨inner, hexpands, rfl, rfl, rfl⟩
  refine ⟨hplaced ▸ hexpands.adds, fun x => ?_, hsites ▸ hexpands.settled⟩
  rw [houter]
  constructor
  · intro hx
    obtain ⟨a, ha, hpath⟩ := hexpands.covers.reached x hx
    exact ⟨a, (hw.mem_auxHeads hn).1 ha, hpath⟩
  · rintro ⟨a, ha, hpath⟩
    exact hexpands.covers.mem_of_leads ((hw.mem_auxHeads hn).2 ha) hpath

/-! ## Levels -/

theorem Faithful.expandNode (hb : g.Faithful below) (hw : g.WellFormed) (hs : g.Sound)
    (hid : id ∈ g.ids) (hstop : some id ≠ stop)
    (run : (below.expandNode g config id stop).Gives s layers u) :
    id ∉ s ∧ ∃ exit, (exit = none ∨ exit = stop) ∧ g.Expands [id] exit s layers u := by
  obtain ⟨n, hn⟩ := exists_node? hid
  obtain ⟨hfree, -, inner, links, t, children, hinner, hchildren, rfl⟩ :=
    (gives_expandNode_iff hstop hn).1 run
  obtain rfl := id_of_node? hn
  have hsub : Adds (n.id :: s) (forestPlacements inner) t ∧ g.Settled (n.id, some inner) ∧
      ∀ site ∈ forestSites inner, g.Settled site := by
    cases hspecial : n.isSpecial with
    | true =>
      rw [hspecial, if_pos rfl] at hinner
      exact hb.subgraph hw hs hn hinner
    | false =>
      rw [hspecial, if_neg Bool.false_ne_true] at hinner
      obtain ⟨rfl, -, rfl⟩ := hinner
      refine ⟨.refl _, fun x => ⟨fun hx => absurd hx List.not_mem_nil, ?_⟩, by simp [forestSites]⟩
      rintro ⟨a, ha, -⟩
      obtain ⟨n', hn', hspecial'⟩ := ha.isSpecial
      rw [hn, Option.some.injEq] at hn'
      rw [hn', hspecial'] at hspecial
      cases hspecial
  obtain ⟨exit, hexit, hexpands⟩ := hb.successors hw hs hchildren
  have hcovers : g.Covers [n.id] exit
      [.node ⟨n.id, n.layerType, n.floatParams, n.stringParams⟩ inner links children] :=
    Covers.node (n := ⟨n.id, n.layerType, n.floatParams, n.stringParams⟩) hexpands.covers
  refine ⟨hfree, exit, hexit, hcovers, ?_, fun site hsite => ?_⟩
  · refine ((Adds.one hfree).trans (hsub.1.trans hexpands.adds)).of_perm ?_
    simp [forestPlacements, placements]
  · simp only [forestSites, sites, List.append_nil, List.mem_cons, List.mem_append] at hsite
    rcases hsite with rfl | hsite | hsite
    · exact hsub.2.1
    · exact hsub.2.2 site hsite
    · exact hexpands.settled site hsite

/-- A level of expansion keeps the contract of the levels below it. -/
theorem Faithful.deeper (hb : g.Faithful below) (hw : g.WellFormed) (hs : g.Sound) :
    g.Faithful (below.deeper g config) where
  node_stop run := gives_expandNode_stop.1 run
  node hid hstop run := hb.expandNode hw hs hid hstop run
  afterGroup hmerging hstop run := by
    obtain ⟨n, hn, hmerge⟩ := hmerging
    obtain ⟨hfree, run⟩ := (gives_expandAfterGroup_iff hstop hn hmerge).1 run
    exact ⟨hfree, hb.successors hw hs run⟩

/-- Where all nodes are placed, nothing more is expanded. -/
theorem faithful_exhausted (g : Graph) : g.Faithful (exhausted g) where
  node_stop run := by
    simp only [exhausted, true_or, if_true] at run
    exact gives_pure_iff.1 run
  node hid hstop run := by
    have hsome := mem_ids.1 hid
    simp only [exhausted, hstop, false_or, Option.isNone_iff_eq_none] at run
    rw [if_neg (fun h => by simp [h] at hsome)] at run
    exact absurd run not_gives_refuse
  afterGroup hmerging hstop run := by
    obtain ⟨n, hn, -⟩ := hmerging
    simp only [exhausted, hstop, if_false, hn] at run
    exact absurd run not_gives_refuse

/-- The expander of a network without findings keeps the contract. -/
theorem faithful_expander (hw : g.WellFormed) (hs : g.Sound) (config : CompilerConfig) :
    g.Faithful (g.expander config) := by
  have hlevels : ∀ k, g.Faithful (levels g config k) := by
    intro k
    induction k with
    | zero => exact faithful_exhausted g
    | succ k ih => exact ih.deeper hw hs
  exact hlevels g.size

/-- A compiled forest accounts for what follows the inputs of the network. -/
theorem expands_of_compile {forest : List Layer} (hw : g.WellFormed)
    (h : g.compile config = .ok forest) :
    g.Sound ∧ ∃ t, g.Expands g.realInputs none [] forest t := by
  obtain ⟨hreport, -, t, run⟩ := compile_eq_ok_iff.1 h
  have hs := hw.sound (hasErrors_validate.1 hreport)
  obtain ⟨exit, hexit, hexpands⟩ := (faithful_expander hw hs config).heads hw hs
    (fun id hid => (hw.of_mem_realInputs hid).1) (by simp) run
  have hnone : exit = none := or_self_iff.1 hexit
  subst hnone
  exact ⟨hs, t, hexpands⟩

end LayerNet.Graph
