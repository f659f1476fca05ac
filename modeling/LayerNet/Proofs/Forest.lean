import LayerNet.Compile.Expansion
import Mathlib.Data.List.Perm.Basic

/-!
# Reading a forest

What a forest of layers says about the network that it was compiled from.

* `forestPlacements` lists every id that a forest places, as the node of a layer or as the merging
  node of a group, whether inside the subgraph of a special node or not.
* `forestOuterIds` lists the ids placed outside of all subgraphs, and `forestSites` the places of
  ids at every depth with the subgraphs inside them.  Together they tell at which depth an id is
  placed (`mem_forestPlacements_iff`).
* `forestEdges` reads a list of layers as a pipeline, leaving the subgraphs aside, and lists the
  edges that it stands for: each layer of a node takes the value of the current source and is the
  source from there on, and the branches of a group start at the same source and end at its merging
  node.  `forestLast` is the source at the end of the pipeline.
-/

namespace LayerNet.Layer

/-! ## Placed ids -/

mutual

/-- The ids that a layer places at any depth. -/
def placements : Layer → List NodeId
  | node source inner _ children =>
    source.id :: (forestPlacements inner ++ forestPlacements children)
  | sequence steps => forestPlacements steps
  | parallel _ merge branches => merge.toList ++ forestPlacements branches

/-- The ids that a forest places at any depth. -/
def forestPlacements : List Layer → List NodeId
  | [] => []
  | layer :: layers => placements layer ++ forestPlacements layers

end

mutual

/-- The ids that a layer places outside of the subgraphs of special nodes. -/
def outerIds : Layer → List NodeId
  | node source _ _ children => source.id :: forestOuterIds children
  | sequence steps => forestOuterIds steps
  | parallel _ merge branches => merge.toList ++ forestOuterIds branches

/-- The ids that a forest places outside of the subgraphs of special nodes. -/
def forestOuterIds : List Layer → List NodeId
  | [] => []
  | layer :: layers => outerIds layer ++ forestOuterIds layers

end

mutual

/-- The places of ids in a layer at any depth.  A node that has a layer stands with the subgraph
inside it, a merging node with nothing. -/
def sites : Layer → List (NodeId × Option (List Layer))
  | node source inner _ children =>
    (source.id, some inner) :: (forestSites inner ++ forestSites children)
  | sequence steps => forestSites steps
  | parallel _ merge branches => merge.toList.map (fun id => (id, none)) ++ forestSites branches

/-- The places of ids in a forest at any depth. -/
def forestSites : List Layer → List (NodeId × Option (List Layer))
  | [] => []
  | layer :: layers => sites layer ++ forestSites layers

end

/-! ## The pipeline -/

/-- The edge from a source to a receiver, if there are both. -/
def feed : Option NodeId → Option NodeId → List (NodeId × NodeId)
  | some a, some b => [(a, b)]
  | _, _ => []

@[simp] theorem feed_none_left (receiver : Option NodeId) : feed none receiver = [] := rfl

@[simp] theorem feed_none_right (source : Option NodeId) : feed source none = [] := by
  cases source <;> rfl

theorem mem_feed {a b : NodeId} {source receiver : Option NodeId} :
    (a, b) ∈ feed source receiver ↔ source = some a ∧ receiver = some b := by
  cases source with
  | none => simp [feed]
  | some s => cases receiver <;> simp [feed, eq_comm]

mutual

/-- The source of what follows a layer.  A group without a merging node leaves the source as it
was. -/
def last : Option NodeId → Layer → Option NodeId
  | _, node source _ _ children => forestLast (some source.id) children
  | source, sequence steps => forestLast source steps
  | source, parallel _ merge _ => merge.or source

/-- The source at the end of a pipeline. -/
def forestLast : Option NodeId → List Layer → Option NodeId
  | source, [] => source
  | source, layer :: layers => forestLast (last source layer) layers

end

mutual

/-- The edges that a layer stands for when it follows `source`. -/
def edges : Option NodeId → Layer → List (NodeId × NodeId)
  | source, node n _ _ children => feed source (some n.id) ++ forestEdges (some n.id) children
  | source, sequence steps => forestEdges source steps
  | source, parallel _ merge branches => branchEdges source merge branches

/-- The edges that a pipeline stands for. -/
def forestEdges : Option NodeId → List Layer → List (NodeId × NodeId)
  | _, [] => []
  | source, layer :: layers => edges source layer ++ forestEdges (last source layer) layers

/-- The edges that the branches of a group stand for; the end of each feeds the merging node. -/
def branchEdges : Option NodeId → Option NodeId → List Layer → List (NodeId × NodeId)
  | _, _, [] => []
  | source, merge, branch :: branches =>
    edges source branch ++ feed (last source branch) merge ++ branchEdges source merge branches

end

/-! ## Depth -/

mutual

theorem placements_eq_map_sites : ∀ layer : Layer, layer.placements = layer.sites.map Prod.fst
  | node source inner _ children => by
    simp only [placements, sites, List.map_cons, List.map_append,
      forestPlacements_eq_map_sites inner, forestPlacements_eq_map_sites children]
  | sequence steps => forestPlacements_eq_map_sites steps
  | parallel _ merge branches => by
    have hmerge : (merge.toList.map fun id => ((id, none) : NodeId × Option (List Layer))).map
        Prod.fst = merge.toList := by cases merge <;> rfl
    simp only [placements, sites, List.map_append, hmerge, forestPlacements_eq_map_sites branches]

/-- The placed ids are those that have a place. -/
theorem forestPlacements_eq_map_sites : ∀ forest : List Layer,
    forestPlacements forest = (forestSites forest).map Prod.fst
  | [] => rfl
  | layer :: layers => by
    simp only [forestPlacements, forestSites, List.map_append, placements_eq_map_sites layer,
      forestPlacements_eq_map_sites layers]

end

mutual

theorem mem_placements_iff {id : NodeId} : ∀ layer : Layer,
    id ∈ layer.placements ↔ id ∈ layer.outerIds ∨
      ∃ owner inner, (owner, some inner) ∈ layer.sites ∧ id ∈ forestOuterIds inner
  | node source inner links children => by
    simp only [placements, outerIds, sites, List.mem_cons, List.mem_append,
      mem_forestPlacements_iff inner, mem_forestPlacements_iff children, Prod.mk.injEq,
      Option.some.injEq]
    constructor
    · rintro (h | (h | ⟨owner, layers, hsite, h⟩) | h | ⟨owner, layers, hsite, h⟩)
      · exact Or.inl (Or.inl h)
      · exact Or.inr ⟨_, _, Or.inl ⟨rfl, rfl⟩, h⟩
      · exact Or.inr ⟨owner, layers, Or.inr (Or.inl hsite), h⟩
      · exact Or.inl (Or.inr h)
      · exact Or.inr ⟨owner, layers, Or.inr (Or.inr hsite), h⟩
    · rintro ((h | h) | ⟨owner, layers, ⟨rfl, rfl⟩ | hsite | hsite, h⟩)
      · exact Or.inl h
      · exact Or.inr (Or.inr (Or.inl h))
      · exact Or.inr (Or.inl (Or.inl h))
      · exact Or.inr (Or.inl (Or.inr ⟨owner, layers, hsite, h⟩))
      · exact Or.inr (Or.inr (Or.inr ⟨owner, layers, hsite, h⟩))
  | sequence steps => mem_forestPlacements_iff steps
  | parallel _ merge branches => by
    have hmerge : ∀ owner inner, (owner, some inner) ∉
        merge.toList.map fun id => ((id, none) : NodeId × Option (List Layer)) := by
      simp
    simp only [placements, outerIds, sites, List.mem_append, mem_forestPlacements_iff branches,
      or_assoc, hmerge, false_or]

/-- An id is placed outside of all subgraphs or directly inside the subgraph of some layer. -/
theorem mem_forestPlacements_iff {id : NodeId} : ∀ forest : List Layer,
    id ∈ forestPlacements forest ↔ id ∈ forestOuterIds forest ∨
      ∃ owner inner, (owner, some inner) ∈ forestSites forest ∧ id ∈ forestOuterIds inner
  | [] => by simp [forestPlacements, forestOuterIds, forestSites]
  | layer :: layers => by
    simp only [forestPlacements, forestOuterIds, forestSites, List.mem_append,
      mem_placements_iff layer, mem_forestPlacements_iff layers, or_and_right, exists_or]
    exact or_or_or_comm

end

mutual

theorem placements_induction {motive : NodeId → Prop} : ∀ layer : Layer,
    (∀ owner inner, (owner, some inner) ∈ layer.sites → motive owner →
      ∀ id ∈ forestOuterIds inner, motive id) →
    (∀ id ∈ layer.outerIds, motive id) → ∀ id ∈ layer.placements, motive id
  | node source inner links children, inside, outer => by
    simp only [sites, List.mem_cons, List.mem_append] at inside
    simp only [outerIds, List.forall_mem_cons] at outer
    have hinner := inside source.id inner (Or.inl rfl) outer.1
    intro id hid
    simp only [placements, List.mem_cons, List.mem_append] at hid
    rcases hid with rfl | hid | hid
    · exact outer.1
    · exact forestPlacements_induction inner
        (fun owner layers hsite => inside owner layers (Or.inr (Or.inl hsite))) hinner id hid
    · exact forestPlacements_induction children
        (fun owner layers hsite => inside owner layers (Or.inr (Or.inr hsite))) outer.2 id hid
  | sequence steps, inside, outer => forestPlacements_induction steps inside outer
  | parallel _ merge branches, inside, outer => by
    simp only [sites, List.mem_append] at inside
    simp only [outerIds, List.mem_append] at outer
    intro id hid
    simp only [placements, List.mem_append] at hid
    rcases hid with hid | hid
    · exact outer id (Or.inl hid)
    · exact forestPlacements_induction branches
        (fun owner layers hsite => inside owner layers (Or.inr hsite))
        (fun id hid => outer id (Or.inr hid)) id hid

/-- What holds of the ids outside of all subgraphs, and is handed on from each node to the ids inside
its layer, holds of all placed ids. -/
theorem forestPlacements_induction {motive : NodeId → Prop} : ∀ forest : List Layer,
    (∀ owner inner, (owner, some inner) ∈ forestSites forest → motive owner →
      ∀ id ∈ forestOuterIds inner, motive id) →
    (∀ id ∈ forestOuterIds forest, motive id) → ∀ id ∈ forestPlacements forest, motive id
  | [], _, _ => by simp [forestPlacements]
  | layer :: layers, inside, outer => by
    simp only [forestSites, List.mem_append] at inside
    simp only [forestOuterIds, List.mem_append] at outer
    intro id hid
    simp only [forestPlacements, List.mem_append] at hid
    rcases hid with hid | hid
    · exact placements_induction layer (fun owner inner hsite => inside owner inner (Or.inl hsite))
        (fun id hid => outer id (Or.inl hid)) id hid
    · exact forestPlacements_induction layers
        (fun owner inner hsite => inside owner inner (Or.inr hsite))
        (fun id hid => outer id (Or.inr hid)) id hid

end

mutual

theorem mem_outerIds_of_mem_edges {a b : NodeId} : ∀ (source : Option NodeId) (layer : Layer),
    (a, b) ∈ edges source layer → b ∈ layer.outerIds
  | source, node n _ _ children, h => by
    rw [edges, List.mem_append] at h
    rw [outerIds, List.mem_cons]
    rcases h with h | h
    · exact Or.inl (Option.some.inj (mem_feed.1 h).2).symm
    · exact Or.inr (mem_forestOuterIds_of_mem_edges _ children h)
  | source, sequence steps, h => mem_forestOuterIds_of_mem_edges source steps h
  | source, parallel _ merge branches, h => by
    rw [outerIds, List.mem_append]
    exact mem_outerIds_of_mem_branchEdges source merge branches h

/-- Every receiver is placed. -/
theorem mem_forestOuterIds_of_mem_edges {a b : NodeId} :
    ∀ (source : Option NodeId) (forest : List Layer),
      (a, b) ∈ forestEdges source forest → b ∈ forestOuterIds forest
  | _, [], h => absurd h List.not_mem_nil
  | source, layer :: layers, h => by
    rw [forestEdges, List.mem_append] at h
    rw [forestOuterIds, List.mem_append]
    rcases h with h | h
    · exact Or.inl (mem_outerIds_of_mem_edges source layer h)
    · exact Or.inr (mem_forestOuterIds_of_mem_edges _ layers h)

theorem mem_outerIds_of_mem_branchEdges {a b : NodeId} :
    ∀ (source merge : Option NodeId) (branches : List Layer),
      (a, b) ∈ branchEdges source merge branches →
        b ∈ merge.toList ∨ b ∈ forestOuterIds branches
  | _, _, [], h => absurd h List.not_mem_nil
  | source, merge, branch :: branches, h => by
    rw [branchEdges, List.mem_append, List.mem_append] at h
    rw [forestOuterIds, List.mem_append]
    rcases h with (h | h) | h
    · exact Or.inr (Or.inl (mem_outerIds_of_mem_edges source branch h))
    · exact Or.inl (by simp [(mem_feed.1 h).2])
    · rcases mem_outerIds_of_mem_branchEdges source merge branches h with h | h
      · exact Or.inl h
      · exact Or.inr (Or.inr h)

end

/-! ## Forests as lists -/

theorem forestPlacements_eq : ∀ forest : List Layer, forestPlacements forest = forest.flatMap placements
  | [] => rfl
  | layer :: layers => by rw [forestPlacements, forestPlacements_eq layers, List.flatMap_cons]

theorem forestOuterIds_eq : ∀ forest : List Layer, forestOuterIds forest = forest.flatMap outerIds
  | [] => rfl
  | layer :: layers => by rw [forestOuterIds, forestOuterIds_eq layers, List.flatMap_cons]

theorem forestSites_eq : ∀ forest : List Layer, forestSites forest = forest.flatMap sites
  | [] => rfl
  | layer :: layers => by rw [forestSites, forestSites_eq layers, List.flatMap_cons]

theorem branchEdges_eq (source merge : Option NodeId) : ∀ branches : List Layer,
    branchEdges source merge branches =
      branches.flatMap fun branch => edges source branch ++ feed (last source branch) merge
  | [] => rfl
  | branch :: branches => by
    rw [branchEdges, branchEdges_eq source merge branches, List.flatMap_cons]

mutual

theorem outerIds_sublist : ∀ layer : Layer, layer.outerIds.Sublist layer.placements
  | node source inner links children => by
    rw [outerIds, placements]
    exact ((forestOuterIds_sublist children).trans (List.sublist_append_right ..)).cons_cons _
  | sequence steps => forestOuterIds_sublist steps
  | parallel _ merge branches => (forestOuterIds_sublist branches).append_left _

/-- What is placed outside of all subgraphs is placed. -/
theorem forestOuterIds_sublist : ∀ forest : List Layer,
    (forestOuterIds forest).Sublist (forestPlacements forest)
  | [] => .slnil
  | layer :: layers => (outerIds_sublist layer).append (forestOuterIds_sublist layers)

end

/-! ## Branches -/

@[simp] theorem placements_asBranch (chain : List Layer) :
    (asBranch chain).placements = forestPlacements chain := by
  match chain with
  | [] => rfl
  | [step] => simp [asBranch, forestPlacements]
  | _ :: _ :: _ => rfl

@[simp] theorem outerIds_asBranch (chain : List Layer) :
    (asBranch chain).outerIds = forestOuterIds chain := by
  match chain with
  | [] => rfl
  | [step] => simp [asBranch, forestOuterIds]
  | _ :: _ :: _ => rfl

@[simp] theorem sites_asBranch (chain : List Layer) :
    (asBranch chain).sites = forestSites chain := by
  match chain with
  | [] => rfl
  | [step] => simp [asBranch, forestSites]
  | _ :: _ :: _ => rfl

@[simp] theorem edges_asBranch (source : Option NodeId) (chain : List Layer) :
    (asBranch chain).edges source = forestEdges source chain := by
  match chain with
  | [] => rfl
  | [step] => simp [asBranch, forestEdges]
  | _ :: _ :: _ => rfl

@[simp] theorem last_asBranch (source : Option NodeId) (chain : List Layer) :
    (asBranch chain).last source = forestLast source chain := by
  match chain with
  | [] => rfl
  | [step] => simp [asBranch, forestLast]
  | _ :: _ :: _ => rfl

@[simp] theorem forestPlacements_branches (chains : List (List Layer)) :
    forestPlacements (chains.map asBranch) = chains.flatMap forestPlacements := by
  rw [forestPlacements_eq, List.flatMap_map]
  simp only [placements_asBranch]

@[simp] theorem forestOuterIds_branches (chains : List (List Layer)) :
    forestOuterIds (chains.map asBranch) = chains.flatMap forestOuterIds := by
  rw [forestOuterIds_eq, List.flatMap_map]
  simp only [outerIds_asBranch]

@[simp] theorem forestSites_branches (chains : List (List Layer)) :
    forestSites (chains.map asBranch) = chains.flatMap forestSites := by
  rw [forestSites_eq, List.flatMap_map]
  simp only [sites_asBranch]

@[simp] theorem branchEdges_branches (source merge : Option NodeId) (chains : List (List Layer)) :
    branchEdges source merge (chains.map asBranch) =
      chains.flatMap fun chain => forestEdges source chain ++ feed (forestLast source chain) merge := by
  rw [branchEdges_eq, List.flatMap_map]
  simp only [edges_asBranch, last_asBranch]

end LayerNet.Layer
