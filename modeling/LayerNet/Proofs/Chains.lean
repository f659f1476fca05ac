import LayerNet.Proofs.Accounting
import LayerNet.Proofs.Runs

/-!
# The chains of a list of heads

A head is a node or a group that ends at a node.  A `Tally` lists what is in its group, or what is
in a chain of layers, and `Graph.Grows` says how the tallies change in a run: some fresh nodes are
placed, the edges out of them are added, and all else stays.  Such changes add up, side by side
(`Grows.append`) and one after the other (`Grows.trans`).

`Graph.Faithful` is the contract of an expander.  Under it the chains of heads that all reach a
point join there (`Faithful.joins`): a chain that led nowhere would contain the point, which is
placed only later.
-/

namespace LayerNet

open Layer Expander Expansion

/-! ## Heads with their groups -/

/-- What layers show: the ids outside of subgraphs, the edges from a source on, and the ids at any
depth with their places. -/
structure Tally where
  outer : List NodeId
  edges : Option NodeId → List (NodeId × NodeId)
  placed : List NodeId
  sites : List (NodeId × Option (List Layer))

/-- The tally of the branches that a group joins at a node. -/
def Tally.ofBranches (merge : Option NodeId) (branches : List Layer) : Tally where
  outer := forestOuterIds branches
  edges source := branchEdges source merge branches
  placed := forestPlacements branches
  sites := forestSites branches

/-- The tally of a chain that leads to a node. -/
def Tally.ofChain (exit : Option NodeId) (chain : List Layer) : Tally where
  outer := forestOuterIds chain
  edges source := forestEdges source chain ++ feed (forestLast source chain) exit
  placed := forestPlacements chain
  sites := forestSites chain

/-- The tally of a head: the branches of its group, or just the edge that enters it. -/
def Head.tally (h : Head) : Tally :=
  match h.group with
  | some (.parallel _ merge branches) => .ofBranches merge branches
  | _ => ⟨[], fun source => feed source (some h.node), [], []⟩

variable {g : Graph} {below : Expander} {s t u fresh more roots : List NodeId}
  {stop exit : Option NodeId} {layers : List Layer} {chains : List (List Layer)} {h : Head}
  {l : List Head} {id p : NodeId} {xs ys zs ws : List Tally}

namespace Graph

/-- A head is a node of the graph; a group ends at a merging node and stands for it. -/
structure Ready (g : Graph) (h : Head) : Prop where
  mem : h.node ∈ g.ids
  group : ∀ group, h.group = some group →
    g.Merging h.node ∧ ∃ r branches, group = .parallel r (some h.node) branches

/-! ## Growing tallies -/

/-- A run changes one list of tallies to another one: it places some fresh nodes that follow the
roots, and adds the edges out of them. -/
structure Grows (g : Graph) (roots : List NodeId) (xs : List Tally) (fresh s : List NodeId)
    (ys : List Tally) (t : List NodeId) : Prop where
  outer : (ys.flatMap Tally.outer).Perm (fresh ++ xs.flatMap Tally.outer)
  edges : ∀ source, (ys.flatMap fun y => y.edges source).Perm
    ((xs.flatMap fun x => x.edges source) ++ fresh.flatMap g.outEdges)
  reached : ∀ x ∈ fresh, ∃ r ∈ roots, g.Leads none r x
  placed : ∃ ids, Adds s ids t ∧ (ys.flatMap Tally.placed).Perm (ids ++ xs.flatMap Tally.placed)
  settled : ∀ site ∈ ys.flatMap Tally.sites, site ∈ xs.flatMap Tally.sites ∨ g.Settled site

theorem grows_refl (g : Graph) (roots : List NodeId) (xs : List Tally) (s : List NodeId) :
    g.Grows roots xs [] s xs s where
  outer := .refl _
  edges source := by simp
  reached x hx := absurd hx List.not_mem_nil
  placed := ⟨[], .refl s, .refl _⟩
  settled site hsite := Or.inl hsite

theorem Grows.append {roots' : List NodeId} (h1 : g.Grows roots xs fresh s ys t)
    (h2 : g.Grows roots' zs more t ws u) :
    g.Grows (roots ++ roots') (xs ++ zs) (fresh ++ more) s (ys ++ ws) u where
  outer := by
    refine List.perm_iff_count.2 ?_
    intro x
    have h1 := h1.outer.count_eq x
    have h2 := h2.outer.count_eq x
    simp only [List.flatMap_append, List.count_append] at h1 h2 ⊢
    omega
  edges source := by
    refine List.perm_iff_count.2 ?_
    intro x
    have h1 := (h1.edges source).count_eq x
    have h2 := (h2.edges source).count_eq x
    simp only [List.flatMap_append, List.count_append] at h1 h2 ⊢
    omega
  reached x hx := by
    rcases List.mem_append.1 hx with hx | hx
    · obtain ⟨r, hr, hpath⟩ := h1.reached x hx
      exact ⟨r, List.mem_append_left _ hr, hpath⟩
    · obtain ⟨r, hr, hpath⟩ := h2.reached x hx
      exact ⟨r, List.mem_append_right _ hr, hpath⟩
  placed := by
    obtain ⟨ids, hids, h1⟩ := h1.placed
    obtain ⟨ids', hids', h2⟩ := h2.placed
    refine ⟨ids ++ ids', hids.trans hids', List.perm_iff_count.2 fun x => ?_⟩
    have h1 := h1.count_eq x
    have h2 := h2.count_eq x
    simp only [List.flatMap_append, List.count_append] at h1 h2 ⊢
    omega
  settled site hsite := by
    simp only [List.flatMap_append, List.mem_append] at hsite ⊢
    rcases hsite with hsite | hsite
    · exact (h1.settled site hsite).imp_left Or.inl
    · exact (h2.settled site hsite).imp_left Or.inr

/-- What follows the roots follows whatever leads to them. -/
theorem Grows.from_roots {roots' : List NodeId} (h : g.Grows roots xs fresh s ys t)
    (hroots : ∀ r ∈ roots, ∃ a ∈ roots', g.Leads none a r) : g.Grows roots' xs fresh s ys t where
  outer := h.outer
  edges := h.edges
  reached x hx := by
    obtain ⟨r, hr, hrx⟩ := h.reached x hx
    obtain ⟨a, ha, har⟩ := hroots r hr
    exact ⟨a, ha, har.trans hrx⟩
  placed := h.placed
  settled := h.settled

theorem Grows.trans (h1 : g.Grows roots xs fresh s ys t) (h2 : g.Grows roots ys more t zs u) :
    g.Grows roots xs (fresh ++ more) s zs u where
  outer := by
    refine List.perm_iff_count.2 ?_
    intro x
    have h1 := h1.outer.count_eq x
    have h2 := h2.outer.count_eq x
    simp only [List.count_append] at h1 h2 ⊢
    omega
  edges source := by
    refine List.perm_iff_count.2 ?_
    intro x
    have h1 := (h1.edges source).count_eq x
    have h2 := (h2.edges source).count_eq x
    simp only [List.flatMap_append, List.count_append] at h1 h2 ⊢
    omega
  reached x hx := (List.mem_append.1 hx).elim (h1.reached x) (h2.reached x)
  placed := by
    obtain ⟨ids, hids, h1⟩ := h1.placed
    obtain ⟨ids', hids', h2⟩ := h2.placed
    refine ⟨ids ++ ids', hids.trans hids', List.perm_iff_count.2 fun x => ?_⟩
    have h1 := h1.count_eq x
    have h2 := h2.count_eq x
    simp only [List.count_append] at h1 h2 ⊢
    omega
  settled site hsite := by
    rcases h2.settled site hsite with hsite | hsite
    · exact h1.settled site hsite
    · exact Or.inr hsite

theorem Grows.of_perm (h : g.Grows roots xs fresh s ys t) (hxs : xs.Perm zs) (hys : ys.Perm ws) :
    g.Grows roots zs fresh s ws t where
  outer := ((hys.flatMap_right _).symm.trans h.outer).trans ((hxs.flatMap_right _).append_left _)
  edges source := ((hys.flatMap_right _).symm.trans (h.edges source)).trans
    ((hxs.flatMap_right _).append_right _)
  reached := h.reached
  placed := by
    obtain ⟨ids, hids, hplaced⟩ := h.placed
    exact ⟨ids, hids, ((hys.flatMap_right _).symm.trans hplaced).trans
      ((hxs.flatMap_right _).append_left _)⟩
  settled site hsite := by
    rw [← (hxs.flatMap_right _).mem_iff]
    exact h.settled site ((hys.flatMap_right _).mem_iff.2 hsite)

theorem Grows.mono (h : g.Grows roots xs fresh s ys t) (hid : id ∈ s) : id ∈ t := by
  obtain ⟨ids, hids, -⟩ := h.placed
  exact hids.mono hid

/-- The layers from a plain head on. -/
theorem Expands.grows (he : g.Expands [id] exit s layers t) :
    g.Grows [id] [Head.tally ⟨id, none⟩] (forestOuterIds layers) s [.ofChain exit layers] t where
  outer := by simp [Head.tally, Tally.ofChain]
  edges source := by
    have hedges := he.covers.edges source
    simpa [Head.tally, Tally.ofChain] using hedges
  reached := he.covers.reached
  placed := ⟨forestPlacements layers, he.adds, by simp [Head.tally, Tally.ofChain]⟩
  settled site hsite := Or.inr (he.settled site (by simpa [Tally.ofChain] using hsite))

/-- A group and what follows it; the merging node is placed first. -/
theorem Expands.grows_group {r : Reduction} {branches : List Layer} (hmerging : g.Merging id)
    (hid : id ∉ s) (he : g.Expands (g.successors id) exit (id :: s) layers t) :
    g.Grows [id] [Head.tally ⟨id, some (.parallel r (some id) branches)⟩]
      (id :: forestOuterIds layers) s
      [.ofChain exit (.parallel r (some id) branches :: layers)] t where
  outer := by
    refine List.perm_iff_count.2 ?_
    intro x
    simp only [Head.tally, Tally.ofChain, Tally.ofBranches, forestOuterIds, outerIds,
      List.flatMap_cons, List.flatMap_nil, List.append_nil, Option.toList_some, List.count_append,
      List.count_cons, List.count_nil]
    omega
  edges source := by
    refine List.perm_iff_count.2 ?_
    intro x
    have hedges := (he.covers.edges (some id)).count_eq x
    rw [← outEdges_eq_flatMap] at hedges
    simp only [Head.tally, Tally.ofChain, Tally.ofBranches, forestEdges, Layer.edges, forestLast,
      Layer.last, List.flatMap_cons, List.flatMap_nil, List.append_nil, Option.some_or,
      List.count_append] at hedges ⊢
    omega
  reached x hx := by
    refine ⟨id, List.mem_singleton_self _, ?_⟩
    rcases List.mem_cons.1 hx with rfl | hx
    · exact .refl (Option.some_ne_none _)
    · obtain ⟨b, hb, hpath⟩ := he.covers.reached x hx
      exact .head (Option.some_ne_none _) hb hpath
  placed := by
    refine ⟨id :: forestPlacements layers, (Adds.one hid).trans he.adds,
      List.perm_iff_count.2 fun x => ?_⟩
    simp only [Head.tally, Tally.ofChain, Tally.ofBranches, forestPlacements, placements,
      List.flatMap_cons, List.flatMap_nil, List.append_nil, Option.toList_some, List.count_append,
      List.count_cons, List.count_nil]
    omega
  settled site hsite := by
    simp only [Head.tally, Tally.ofChain, Tally.ofBranches, forestSites, sites, List.flatMap_cons,
      List.flatMap_nil, List.append_nil, List.mem_append, Option.toList_some, List.map_cons,
      List.map_nil, List.mem_singleton] at hsite ⊢
    rcases hsite with (rfl | hsite) | hsite
    · exact Or.inr hmerging
    · exact Or.inl hsite
    · exact Or.inr (he.settled site hsite)

/-! ## Expanders -/

/-- The contract of an expander: it stops at `stop`, and from any other node on it accounts for what
follows.  A group stands for its merging node, so what follows the node is accounted for. -/
structure Faithful (g : Graph) (below : Expander) : Prop where
  node_stop : ∀ {id s layers t}, (below.node id (some id)).Gives s layers t → layers = [] ∧ t = s
  node : ∀ {id stop s layers t}, id ∈ g.ids → some id ≠ stop →
    (below.node id stop).Gives s layers t →
      id ∉ s ∧ ∃ exit, (exit = none ∨ exit = stop) ∧ g.Expands [id] exit s layers t
  afterGroup : ∀ {id stop s layers t}, g.Merging id → some id ≠ stop →
    (below.afterGroup id stop).Gives s layers t →
      id ∉ s ∧ ∃ exit, (exit = none ∨ exit = stop) ∧
        g.Expands (g.successors id) exit (id :: s) layers t

/-- The chain of one head.  If it leads nowhere, all that follows the head is placed. -/
theorem Faithful.chain (hb : g.Faithful below) (hready : g.Ready h)
    (hne : h.group.isSome = true → some h.node ≠ stop)
    (run : (below.chain h stop).Gives s layers t) :
    (some h.node ≠ stop → h.node ∉ s ∧ layers ≠ []) ∧ ∃ exit fresh, (exit = none ∨ exit = stop) ∧
      g.Grows [h.node] [h.tally] fresh s [.ofChain exit layers] t ∧
        (exit = none → ∀ x, g.Leads none h.node x → x ∈ t) := by
  obtain ⟨id, _ | group⟩ := h
  · rw [gives_chain_iff_of_none] at run
    by_cases hstop : some id = stop
    · subst hstop
      obtain ⟨rfl, rfl⟩ := hb.node_stop run
      exact ⟨fun hne => absurd rfl hne, some id, [], Or.inr rfl, (g.expands_nil (some id) t).grows,
        fun hnone => absurd hnone (Option.some_ne_none _)⟩
    · obtain ⟨hid, exit, hexit, he⟩ := hb.node hready.mem hstop run
      refine ⟨fun _ => ⟨hid, he.covers.ne_nil (List.mem_singleton_self id) ?_⟩, exit, _, hexit,
        he.grows, fun hnone x hpath => ?_⟩
      · rcases hexit with rfl | rfl
        · exact Option.some_ne_none id
        · exact hstop
      · subst hnone
        have hx := he.covers.mem_of_leads (List.mem_singleton_self id) hpath
        exact he.adds.mem_iff.2 (Or.inl ((forestOuterIds_sublist layers).mem hx))
  · obtain ⟨hmerging, r, branches, hgroup⟩ := hready.group group rfl
    dsimp only at hgroup
    subst hgroup
    obtain ⟨rest, hafter, rfl⟩ := gives_chain_iff_of_some.1 run
    obtain ⟨hid, exit, hexit, he⟩ := hb.afterGroup hmerging (hne rfl) hafter
    refine ⟨fun _ => ⟨hid, List.cons_ne_nil _ _⟩, exit, _, hexit, he.grows_group hmerging hid,
      fun hnone x hpath => ?_⟩
    subst hnone
    rcases Relation.ReflTransGen.cases_head (leads_none_iff.1 hpath) with rfl | ⟨b, hab, hbx⟩
    · exact he.adds.mono List.mem_cons_self
    · have hx := he.covers.mem_of_leads hab (leads_none_iff.2 hbx)
      exact he.adds.mem_iff.2 (Or.inl ((forestOuterIds_sublist rest).mem hx))

/-- No head on the way is placed before the chains of the heads, and each has layers. -/
theorem Faithful.untouched (hb : g.Faithful below) (hready : ∀ h ∈ l, g.Ready h)
    (hne : ∀ h ∈ l, h.group.isSome = true → some h.node ≠ stop)
    (run : (l.mapM fun h => below.chain h stop).Gives s chains t) :
    (∀ h ∈ l, some h.node ≠ stop → h.node ∉ s) ∧
      ((∀ h ∈ l, some h.node ≠ stop) → ∀ chain ∈ chains, chain ≠ []) := by
  induction l generalizing s chains with
  | nil =>
    obtain ⟨rfl, rfl⟩ := gives_mapM_nil_iff.1 run
    simp
  | cons h l ih =>
    obtain ⟨layers, r, rest, hone, hrest, rfl⟩ := gives_mapM_cons_iff.1 run
    simp only [List.forall_mem_cons] at hready hne ⊢
    obtain ⟨hnotin, hlayers⟩ := ih hready.2 hne.2 hrest
    obtain ⟨hid, exit, fresh, -, hgrows, -⟩ := hb.chain hready.1 hne.1 hone
    refine ⟨⟨fun hstop => (hid hstop).1, fun h' hh' hstop hs => ?_⟩, fun hstop => ⟨?_, ?_⟩⟩
    · exact hnotin h' hh' hstop (hgrows.mono hs)
    · exact (hid hstop.1).2
    · exact hlayers hstop.2

/-- The chains of heads that all reach the end join there, if the end is not placed among them. -/
theorem Faithful.joins (hb : g.Faithful below) (hready : ∀ h ∈ l, g.Ready h)
    (hne : ∀ h ∈ l, h.group.isSome = true → some h.node ≠ stop)
    (hstop : ∀ p, stop = some p → p ∉ t ∧ ∀ h ∈ l, g.Leads none h.node p)
    (run : (l.mapM fun h => below.chain h stop).Gives s chains t) : ∃ fresh,
      g.Grows (l.map Head.node) (l.map Head.tally) fresh s (chains.map (.ofChain stop)) t := by
  induction l generalizing s chains with
  | nil =>
    obtain ⟨rfl, rfl⟩ := gives_mapM_nil_iff.1 run
    exact ⟨[], g.grows_refl [] [] t⟩
  | cons h l ih =>
    obtain ⟨layers, r, rest, hone, hrest, rfl⟩ := gives_mapM_cons_iff.1 run
    rw [List.forall_mem_cons] at hready hne
    obtain ⟨more, hmore⟩ := ih hready.2 hne.2
      (fun p hp => ⟨(hstop p hp).1, fun h' hh' => (hstop p hp).2 h' (List.mem_cons_of_mem _ hh')⟩)
      hrest
    obtain ⟨-, exit, fresh, hexit, hgrows, hall⟩ := hb.chain hready.1 hne.1 hone
    -- a chain that leads nowhere would have placed the end
    have hexit : exit = stop := by
      rcases hexit with rfl | hexit
      · cases stop with
        | none => rfl
        | some p =>
          obtain ⟨hp, hpaths⟩ := hstop p rfl
          exact absurd (hmore.mono (hall rfl p (hpaths h List.mem_cons_self))) hp
      · exact hexit
    subst hexit
    exact ⟨fresh ++ more, hgrows.append hmore⟩

end Graph

end LayerNet
