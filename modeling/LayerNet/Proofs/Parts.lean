import LayerNet.Proofs.Forest
import LayerNet.Proofs.Runs

/-!
# The parts of a compiled forest

`forestParts` lists the layers of a forest at every depth, and `Graph.Formed` says what a layer looks
like that the compiler forms: the layer of a node has the type, the parameters and the wires of its
node, and a group has the reduction that its merging node declares, or the default one.

`Graph.formed_of_compile` says that all parts of a compiled forest are formed so.  Levels of
expansion only put layers together, and each of the few places where they do is a case of
`Graph.Formed`.
-/

namespace LayerNet

namespace Layer

/-! ## Parts -/

mutual

/-- The layers of a tree at any depth, the tree itself first. -/
def parts : Layer → List Layer
  | node source inner links children =>
    node source inner links children :: (forestParts inner ++ forestParts children)
  | sequence steps => sequence steps :: forestParts steps
  | parallel reduction merge branches =>
    parallel reduction merge branches :: forestParts branches

/-- The layers of a forest at any depth. -/
def forestParts : List Layer → List Layer
  | [] => []
  | layer :: layers => parts layer ++ forestParts layers

end

theorem forestParts_eq (forest : List Layer) : forestParts forest = forest.flatMap parts := by
  induction forest with
  | nil => rfl
  | cons layer layers ih => rw [forestParts, ih, List.flatMap_cons]

mutual

theorem mem_sites_of_mem_parts {source : LayerNode} {inner children : List Layer}
    {links : List AuxLink} : ∀ layer : Layer, node source inner links children ∈ layer.parts →
      (source.id, some inner) ∈ layer.sites
  | node source' inner' _ children', h => by
    rw [parts, List.mem_cons, List.mem_append] at h
    rw [sites, List.mem_cons, List.mem_append]
    rcases h with h | h | h
    · cases h
      exact Or.inl rfl
    · exact Or.inr (Or.inl (mem_forestSites_of_mem_forestParts inner' h))
    · exact Or.inr (Or.inr (mem_forestSites_of_mem_forestParts children' h))
  | sequence steps, h => by
    rw [parts, List.mem_cons] at h
    exact mem_forestSites_of_mem_forestParts steps (h.resolve_left (by simp))
  | parallel _ merge branches, h => by
    rw [parts, List.mem_cons] at h
    rw [sites, List.mem_append]
    exact Or.inr (mem_forestSites_of_mem_forestParts branches (h.resolve_left (by simp)))

/-- The layer of a node is a place of its node. -/
theorem mem_forestSites_of_mem_forestParts {source : LayerNode} {inner children : List Layer}
    {links : List AuxLink} : ∀ forest : List Layer,
      node source inner links children ∈ forestParts forest →
        (source.id, some inner) ∈ forestSites forest
  | [], h => absurd h List.not_mem_nil
  | layer :: layers, h => by
    rw [forestParts, List.mem_append] at h
    rw [forestSites, List.mem_append]
    exact h.imp (mem_sites_of_mem_parts layer) (mem_forestSites_of_mem_forestParts layers)

end

theorem mem_forestPlacements_of_mem_forestParts {forest : List Layer} {source : LayerNode}
    {inner children : List Layer} {links : List AuxLink}
    (h : node source inner links children ∈ forestParts forest) :
    source.id ∈ forestPlacements forest := by
  rw [forestPlacements_eq_map_sites]
  exact List.mem_map_of_mem (mem_forestSites_of_mem_forestParts forest h)

end Layer

open Layer Expander Expansion

/-! ## What the compiler forms -/

/-- A layer as the compiler forms it. -/
inductive Graph.Formed (g : Graph) (config : CompilerConfig) : Layer → Prop
  /-- The layer of a node. -/
  | node {n : Node} (hn : g.node? n.id = some n) (inner children : List Layer) :
    Formed g config
      (.node ⟨n.id, n.layerType, n.floatParams, n.stringParams⟩ inner
        ((auxLinks n).map Prod.snd) children)
  /-- A branch of several steps, or of none. -/
  | sequence (steps : List Layer) : Formed g config (.sequence steps)
  /-- Branches that meet. -/
  | group (point : NodeId) (branches : List Layer) :
    Formed g config (g.groupAt config point branches)
  /-- Branches that never meet. -/
  | apart (branches : List Layer) :
    Formed g config (.parallel config.defaultReduction none branches)

/-- The layer of a node has the wires of its node. -/
theorem Graph.Formed.of_node {g : Graph} {config : CompilerConfig} {source : LayerNode}
    {inner children : List Layer} {links : List AuxLink}
    (h : g.Formed config (.node source inner links children)) :
    ∃ n, g.node? source.id = some n ∧ source = ⟨n.id, n.layerType, n.floatParams, n.stringParams⟩ ∧
      links = (auxLinks n).map Prod.snd := by
  generalize hlayer : Layer.node source inner links children = layer at h
  cases h with
  | @node n hn _ _ =>
    cases hlayer
    exact ⟨n, hn, rfl, rfl⟩
  | sequence steps => cases hlayer
  | group point branches => cases hlayer
  | apart branches => cases hlayer

/-- A forest of which all parts are formed by the compiler. -/
def Graph.FormedAll (g : Graph) (config : CompilerConfig) (forest : List Layer) : Prop :=
  ∀ part ∈ forestParts forest, g.Formed config part

namespace Graph

variable {g : Graph} {config : CompilerConfig} {below : Expander} {s t u : List NodeId}
  {stop : Option NodeId} {layer : Layer} {layers layers' : List Layer} {chains : List (List Layer)}
  {pending final groups : List Head} {id : NodeId} {n : Node}

theorem formedAll_nil : g.FormedAll config [] := fun _ h => absurd h List.not_mem_nil

theorem formedAll_cons_iff :
    g.FormedAll config (layer :: layers) ↔
      (∀ part ∈ layer.parts, g.Formed config part) ∧ g.FormedAll config layers := by
  simp only [FormedAll, forestParts, List.forall_mem_append]

theorem formedAll_flatten (h : ∀ chain ∈ chains, g.FormedAll config chain) :
    g.FormedAll config chains.flatten := by
  intro part hpart
  rw [forestParts_eq, List.mem_flatMap] at hpart
  obtain ⟨layer, hlayer, hpart⟩ := hpart
  obtain ⟨chain, hchain, hlayer⟩ := List.mem_flatten.1 hlayer
  refine h chain hchain part ?_
  rw [forestParts_eq]
  exact List.mem_flatMap.2 ⟨layer, hlayer, hpart⟩

theorem formedAll_asBranch (h : g.FormedAll config layers) :
    ∀ part ∈ (asBranch layers).parts, g.Formed config part := by
  match layers with
  | [] =>
    intro part hpart
    obtain rfl := List.mem_singleton.1 hpart
    exact .sequence []
  | [step] => exact (formedAll_cons_iff.1 h).1
  | first :: second :: rest =>
    intro part hpart
    rcases List.mem_cons.1 hpart with rfl | hpart
    · exact .sequence _
    · exact h part hpart

theorem formedAll_branches (h : ∀ chain ∈ chains, g.FormedAll config chain) :
    g.FormedAll config (chains.map asBranch) := by
  intro part hpart
  rw [forestParts_eq, List.flatMap_map, List.mem_flatMap] at hpart
  obtain ⟨chain, hchain, hpart⟩ := hpart
  exact formedAll_asBranch (h chain hchain) part hpart

/-- A group of formed branches is formed, whatever its reduction. -/
theorem formedAll_parallel {reduction : Reduction} {merge : Option NodeId} {branches : List Layer}
    (h : g.Formed config (.parallel reduction merge branches))
    (hbranches : g.FormedAll config branches) :
    g.FormedAll config [.parallel reduction merge branches] := by
  refine formedAll_cons_iff.2 ⟨fun part hpart => ?_, formedAll_nil⟩
  rcases List.mem_cons.1 hpart with rfl | hpart
  · exact h
  · exact hbranches part hpart

theorem auxLinks_eq_nil (h : n.isSpecial = false) : auxLinks n = [] := by
  have hnone : n.special = none := by simpa [Node.isSpecial] using h
  simp [auxLinks, hnone, auxLayout]

/-! ## Levels -/

/-- A head whose group, if it has one, is formed. -/
def FormedHead (g : Graph) (config : CompilerConfig) (head : Head) : Prop :=
  ∀ group, head.group = some group → g.FormedAll config [group]

/-- A level of expansion that gives nothing but formed layers. -/
structure FormedBy (g : Graph) (config : CompilerConfig) (below : Expander) : Prop where
  node : ∀ {id stop s layers t}, (below.node id stop).Gives s layers t → g.FormedAll config layers
  afterGroup : ∀ {id stop s layers t}, (below.afterGroup id stop).Gives s layers t →
    g.FormedAll config layers

theorem FormedBy.chain {head : Head} (hb : g.FormedBy config below) (hh : g.FormedHead config head)
    (run : (below.chain head stop).Gives s layers t) : g.FormedAll config layers := by
  obtain ⟨id, group⟩ := head
  cases group with
  | none => exact hb.node (gives_chain_iff_of_none.1 run)
  | some group =>
    obtain ⟨rest, hrest, rfl⟩ := gives_chain_iff_of_some.1 run
    exact formedAll_cons_iff.2 ⟨(formedAll_cons_iff.1 (hh group rfl)).1, hb.afterGroup hrest⟩

theorem FormedBy.mapM_chain (hb : g.FormedBy config below) (hp : ∀ h ∈ pending, g.FormedHead config h)
    (run : (pending.mapM fun h => below.chain h stop).Gives s chains t) :
    ∀ chain ∈ chains, g.FormedAll config chain := by
  induction pending generalizing s chains with
  | nil =>
    obtain ⟨rfl, -⟩ := gives_mapM_nil_iff.1 run
    exact fun chain hchain => absurd hchain List.not_mem_nil
  | cons head pending ih =>
    obtain ⟨chain, r, rest, hchain, hrest, rfl⟩ := gives_mapM_cons_iff.1 run
    rw [List.forall_mem_cons] at hp ⊢
    exact ⟨hb.chain hp.1 hchain, ih hp.2 hrest⟩

theorem FormedBy.grouped {meetings : List MeetingPoint} (hb : g.FormedBy config below)
    (hp : ∀ h ∈ pending, g.FormedHead config h)
    (run : Grouped g config below pending meetings s groups t) :
    ∀ h ∈ groups, g.FormedHead config h := by
  induction run with
  | nil s => exact fun h hh => absurd hh List.not_mem_nil
  | cons hchains _ _ ih =>
    refine List.forall_mem_cons.2 ⟨?_, ih⟩
    intro group hgroup
    cases hgroup
    refine formedAll_parallel (.group ..) (formedAll_branches (hb.mapM_chain (fun h hh => ?_) hchains))
    obtain ⟨i, -, hget⟩ := mem_members.1 hh
    exact hp h (List.mem_of_getElem? hget)

theorem mem_regroup {placed : List (Nat × Head)} {taken : List Nat} {h : Head}
    (hh : h ∈ regroup pending placed taken) : h ∈ placed.map Prod.snd ∨ h ∈ pending := by
  rw [regroup, List.mem_flatMap] at hh
  obtain ⟨⟨head, i⟩, hi, hh⟩ := hh
  rcases List.mem_append.1 hh with hh | hh
  · exact Or.inl ((List.filter_sublist.map _).subset hh)
  · split at hh
    · exact absurd hh List.not_mem_nil
    · rw [List.mem_singleton.1 hh]
      exact Or.inr (List.mem_of_getElem? (List.mem_zipIdx_iff_getElem?.1 hi))

theorem FormedBy.rounds {fuel : Nat} (hb : g.FormedBy config below)
    (hp : ∀ h ∈ pending, g.FormedHead config h)
    (run : (below.rounds g config stop fuel pending).Gives s final t) :
    ∀ h ∈ final, g.FormedHead config h := by
  induction fuel generalizing pending s with
  | zero =>
    obtain ⟨rfl, -⟩ := gives_rounds_zero_iff.1 run
    exact hp
  | succ fuel ih =>
    rcases gives_rounds_succ_iff.1 run with ⟨-, rfl, -⟩ | ⟨-, placed, marks, r, hround, hrest⟩
    · exact hp
    · obtain ⟨-, -, -, -, hgrouped⟩ := gives_groupsAt_iff.1 hround
      refine ih (fun h hh => ?_) hrest
      rcases mem_regroup hh with hh | hh
      · exact hb.grouped hp hgrouped h hh
      · exact hp h hh

theorem FormedBy.converge {roots : List NodeId} (hb : g.FormedBy config below)
    (run : (below.converge g config roots stop).Gives s chains t) :
    ∀ chain ∈ chains, g.FormedAll config chain := by
  obtain ⟨final, r, hrounds, hchains⟩ := gives_converge_iff.1 run
  refine hb.mapM_chain (hb.rounds (fun h hh => ?_) hrounds) hchains
  obtain ⟨id, -, rfl⟩ := List.mem_map.1 hh
  exact fun group hgroup => absurd hgroup (by simp)

theorem FormedBy.mergeHeads {roots : List NodeId} (hb : g.FormedBy config below)
    (run : (below.mergeHeads g config roots stop).Gives s layers t) :
    g.FormedAll config layers := by
  obtain ⟨chains, hconverge, hlayers⟩ := gives_mergeHeads_iff.1 run
  have hfull : ∀ chain ∈ chains.filter fun chain => !chain.isEmpty, g.FormedAll config chain :=
    fun chain hchain => hb.converge hconverge chain (List.mem_of_mem_filter hchain)
  rcases hlayers with ⟨-, rfl⟩ | hone | ⟨-, -, rfl⟩
  · exact formedAll_nil
  · exact hfull layers (by simp [hone])
  · exact formedAll_parallel (.apart _) (formedAll_branches hfull)

theorem FormedBy.heads {roots : List NodeId} (hb : g.FormedBy config below)
    (run : (below.heads g config roots stop).Gives s layers t) : g.FormedAll config layers := by
  match roots with
  | [] =>
    obtain ⟨rfl, -⟩ := gives_heads_nil_iff.1 run
    exact formedAll_nil
  | [head] => exact hb.node (gives_heads_single_iff.1 run)
  | _ :: _ :: _ => exact hb.mergeHeads ((gives_heads_iff (by simp)).1 run)

theorem FormedBy.subgraph {inner : List Layer} {links : List AuxLink} (hb : g.FormedBy config below)
    (run : (below.subgraph g config n).Gives s (inner, links) t) :
    links = (auxLinks n).map Prod.snd ∧ g.FormedAll config inner := by
  obtain ⟨hlinks, ⟨-, chains, hchains, rfl⟩ | ⟨-, hheads⟩⟩ := gives_subgraph_iff.1 run
  · exact ⟨hlinks, formedAll_flatten (hb.converge hchains)⟩
  · exact ⟨hlinks, hb.heads hheads⟩

theorem FormedBy.expandNode (hb : g.FormedBy config below)
    (run : (below.expandNode g config id stop).Gives s layers t) : g.FormedAll config layers := by
  by_cases hstop : some id = stop
  · subst hstop
    obtain ⟨rfl, -⟩ := gives_expandNode_stop.1 run
    exact formedAll_nil
  · cases hn : g.node? id with
    | none =>
      rw [Expander.expandNode, if_neg hstop, hn] at run
      obtain ⟨rfl, -⟩ := gives_pure_iff.1 run
      exact formedAll_nil
    | some n =>
      obtain ⟨-, -, inner, links, r, children, hinner, hchildren, rfl⟩ :=
        (gives_expandNode_iff hstop hn).1 run
      have hself : g.node? n.id = some n := (Keyed.key_of_get? hn).symm ▸ hn
      have hsub : links = (auxLinks n).map Prod.snd ∧ g.FormedAll config inner := by
        cases hspecial : n.isSpecial with
        | true =>
          rw [hspecial, if_pos rfl] at hinner
          exact hb.subgraph hinner
        | false =>
          rw [hspecial, if_neg Bool.false_ne_true] at hinner
          obtain ⟨rfl, rfl, -⟩ := hinner
          exact ⟨by rw [auxLinks_eq_nil hspecial, List.map_nil], formedAll_nil⟩
      obtain ⟨rfl, hformed⟩ := hsub
      refine formedAll_cons_iff.2 ⟨fun part hpart => ?_, formedAll_nil⟩
      rcases List.mem_cons.1 hpart with rfl | hpart
      · exact .node hself inner children
      · rcases List.mem_append.1 hpart with hpart | hpart
        · exact hformed part hpart
        · exact hb.heads (gives_successors_iff.1 hchildren).2 part hpart

theorem FormedBy.expandAfterGroup (hb : g.FormedBy config below)
    (run : (below.expandAfterGroup g config id stop).Gives s layers t) :
    g.FormedAll config layers := by
  by_cases hstop : some id = stop
  · subst hstop
    obtain ⟨rfl, -⟩ := gives_expandAfterGroup_stop.1 run
    exact formedAll_nil
  · cases hn : g.node? id with
    | none =>
      rw [Expander.expandAfterGroup, if_neg hstop, hn] at run
      obtain ⟨rfl, -⟩ := gives_pure_iff.1 run
      exact formedAll_nil
    | some n =>
      cases hmerge : g.catalog.isMerge n.layerType with
      | true =>
        obtain ⟨-, run⟩ := (gives_expandAfterGroup_iff hstop hn hmerge).1 run
        exact hb.heads (gives_successors_iff.1 run).2
      | false =>
        rw [Expander.expandAfterGroup, if_neg hstop, hn] at run
        simp only [hmerge, Bool.false_eq_true, if_false] at run
        exact hb.expandNode run

theorem FormedBy.deeper (hb : g.FormedBy config below) :
    g.FormedBy config (below.deeper g config) where
  node run := hb.expandNode run
  afterGroup run := hb.expandAfterGroup run

theorem formedBy_exhausted (g : Graph) (config : CompilerConfig) :
    g.FormedBy config (exhausted g) where
  node run := by
    simp only [exhausted] at run
    split at run
    · obtain ⟨rfl, -⟩ := gives_pure_iff.1 run
      exact formedAll_nil
    · exact absurd run not_gives_refuse
  afterGroup run := by
    simp only [exhausted] at run
    split at run
    · obtain ⟨rfl, -⟩ := gives_pure_iff.1 run
      exact formedAll_nil
    · split at run
      · obtain ⟨rfl, -⟩ := gives_pure_iff.1 run
        exact formedAll_nil
      · exact absurd run not_gives_refuse

theorem formedBy_expander (g : Graph) (config : CompilerConfig) :
    g.FormedBy config (g.expander config) := by
  have hlevels : ∀ k, g.FormedBy config (levels g config k) := by
    intro k
    induction k with
    | zero => exact formedBy_exhausted g config
    | succ k ih => exact ih.deeper
  exact hlevels g.size

/-- All parts of a compiled forest are formed by the compiler. -/
theorem formed_of_compile {forest : List Layer} {part : Layer} (h : g.compile config = .ok forest)
    (hpart : part ∈ forestParts forest) : g.Formed config part := by
  obtain ⟨-, -, t, run⟩ := compile_eq_ok_iff.1 h
  exact (formedBy_expander g config).heads run part hpart

end Graph

end LayerNet
