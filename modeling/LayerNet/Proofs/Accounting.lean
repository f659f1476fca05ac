import LayerNet.Proofs.Capture
import LayerNet.Proofs.Forest

/-!
# Accounting for nodes and edges

What an expansion is held to.  `Adds` says which ids a run places, `Graph.Covers` that a list of
layers, read as a pipeline, stands for the edges into its heads and all edges out of the nodes that
it places, and `Graph.Settled` that the subgraph inside a layer is what follows the auxiliary
outputs of its node.  `Graph.Expands` puts the three together.

An expansion on the way to a node leaves one edge open, the one that enters this node.  It is the
only edge that the layers do not show, so `Covers` is told where they lead.  Layers that lead nowhere
contain everything that follows their heads (`Covers.mem_of_leads`).
-/

namespace LayerNet

open Layer

@[simp] theorem flatMap_const_nil {α β : Type} (l : List α) : (l.flatMap fun _ => ([] : List β)) = [] :=
  List.flatMap_eq_nil_iff.2 fun _ _ => rfl

/-! ## Placed ids -/

/-- The ids that a run adds to those that are placed; none is placed twice. -/
structure Adds (s ids t : List NodeId) : Prop where
  perm : t.Perm (ids ++ s)
  nodup : s.Nodup → t.Nodup

variable {s t u ids more : List NodeId} {a b id : NodeId}

theorem Adds.refl (s : List NodeId) : Adds s [] s := ⟨.refl _, fun h => h⟩

theorem Adds.one (h : id ∉ s) : Adds s [id] (id :: s) := ⟨.refl _, fun hs => List.nodup_cons.2 ⟨h, hs⟩⟩

theorem Adds.trans (hst : Adds s ids t) (htu : Adds t more u) : Adds s (ids ++ more) u := by
  refine ⟨List.perm_iff_count.2 fun x => ?_, fun hs => htu.nodup (hst.nodup hs)⟩
  have hst := hst.perm.count_eq x
  have htu := htu.perm.count_eq x
  simp only [List.count_append] at hst htu ⊢
  omega

theorem Adds.of_perm (h : Adds s ids t) (hids : ids.Perm more) : Adds s more t :=
  ⟨h.perm.trans (hids.append_right s), h.nodup⟩

theorem Adds.mem_iff (h : Adds s ids t) : id ∈ t ↔ id ∈ ids ∨ id ∈ s := by
  rw [h.perm.mem_iff, List.mem_append]

theorem Adds.mono (h : Adds s ids t) (hid : id ∈ s) : id ∈ t := h.mem_iff.2 (Or.inr hid)

namespace Graph

variable {g : Graph} {heads : List NodeId} {exit : Option NodeId} {layers inner : List Layer}

/-! ## Covered edges -/

/-- The edges out of a node. -/
def outEdges (g : Graph) (a : NodeId) : List (NodeId × NodeId) := (g.successors a).map fun b => (a, b)

theorem mem_outEdges {e : NodeId × NodeId} : e ∈ g.outEdges a ↔ e.1 = a ∧ g.Flows a e.2 := by
  simp only [outEdges, List.mem_map]
  constructor
  · rintro ⟨b, hb, rfl⟩
    exact ⟨rfl, hb⟩
  · rintro ⟨rfl, h⟩
    exact ⟨e.2, h, rfl⟩

theorem outEdges_eq_flatMap : g.outEdges a = (g.successors a).flatMap fun b => feed (some a) (some b) := by
  rw [outEdges, List.map_eq_flatMap]
  rfl

/-- The layers that follow some heads and lead to at most one other node. -/
structure Covers (g : Graph) (heads : List NodeId) (exit : Option NodeId) (layers : List Layer) :
    Prop where
  /-- From any source, the layers and the edge that is left open stand for the edges into the heads
  and the edges out of all nodes placed. -/
  edges : ∀ source, (forestEdges source layers ++ feed (forestLast source layers) exit).Perm
    ((heads.flatMap fun h => feed source (some h)) ++ (forestOuterIds layers).flatMap g.outEdges)
  /-- A node is placed because it follows a head. -/
  reached : ∀ x ∈ forestOuterIds layers, ∃ h ∈ heads, g.Leads none h x

theorem Covers.mem_of_head (h : g.Covers heads none layers) {head : NodeId} (hhead : head ∈ heads) :
    head ∈ forestOuterIds layers := by
  have hentry : (0, head) ∈ heads.flatMap fun h => feed (some 0) (some h) :=
    List.mem_flatMap.2 ⟨head, hhead, mem_feed.2 ⟨rfl, rfl⟩⟩
  have hmem := (h.edges (some 0)).mem_iff.2 (List.mem_append_left _ hentry)
  rw [List.mem_append, mem_feed] at hmem
  rcases hmem with hmem | ⟨-, hnone⟩
  · exact mem_forestOuterIds_of_mem_edges _ _ hmem
  · cases hnone

theorem Covers.mem_of_flows (h : g.Covers heads none layers) (ha : a ∈ forestOuterIds layers)
    (hab : g.Flows a b) : b ∈ forestOuterIds layers := by
  have hout : (a, b) ∈ (forestOuterIds layers).flatMap g.outEdges :=
    List.mem_flatMap.2 ⟨a, ha, mem_outEdges.2 ⟨rfl, hab⟩⟩
  have hmem := (h.edges none).mem_iff.2 (List.mem_append_right _ hout)
  rw [List.mem_append, mem_feed] at hmem
  rcases hmem with hmem | ⟨-, hnone⟩
  · exact mem_forestOuterIds_of_mem_edges _ _ hmem
  · cases hnone

/-- Layers that lead nowhere contain what follows their heads. -/
theorem Covers.mem_of_leads (h : g.Covers heads none layers) {head : NodeId} (hhead : head ∈ heads)
    {stop : Option NodeId} (hab : g.Leads stop head b) : b ∈ forestOuterIds layers :=
  hab.induction (h.mem_of_head hhead) fun _ _ _ hx hxy _ => h.mem_of_flows hx hxy

/-- Something follows a head that is not the exit. -/
theorem Covers.ne_nil (h : g.Covers heads exit layers) {head : NodeId} (hhead : head ∈ heads)
    (hne : some head ≠ exit) : layers ≠ [] := by
  rintro rfl
  have hentry : (0, head) ∈ heads.flatMap fun h => feed (some 0) (some h) :=
    List.mem_flatMap.2 ⟨head, hhead, mem_feed.2 ⟨rfl, rfl⟩⟩
  have hmem := (h.edges (some 0)).mem_iff.2 (List.mem_append_left _ hentry)
  exact hne (mem_feed.1 hmem).2.symm

theorem covers_nil (g : Graph) (exit : Option NodeId) : g.Covers exit.toList exit [] where
  edges source := by cases exit <;> simp [forestEdges, forestLast, forestOuterIds, feed]
  reached x hx := absurd hx List.not_mem_nil

/-- A layer of a node is followed by what covers the edges out of the node. -/
theorem Covers.node {n : LayerNode} {links : List AuxLink}
    (h : g.Covers (g.successors n.id) exit layers) :
    g.Covers [n.id] exit [.node n inner links layers] where
  edges source := by
    have hedges := h.edges (some n.id)
    rw [← outEdges_eq_flatMap] at hedges
    simp only [forestEdges, Layer.edges, forestLast, Layer.last, forestOuterIds, outerIds,
      List.append_nil, List.flatMap_cons, List.flatMap_nil, List.append_assoc]
    exact hedges.append_left _
  reached x hx := by
    simp only [forestOuterIds, outerIds, List.append_nil, List.mem_cons] at hx
    refine ⟨n.id, List.mem_singleton_self _, ?_⟩
    rcases hx with rfl | hx
    · exact .refl (Option.some_ne_none _)
    · obtain ⟨b, hb, hpath⟩ := h.reached x hx
      exact .head (Option.some_ne_none _) hb hpath

/-! ## Settled places -/

/-- The node merges its inputs. -/
def Merging (g : Graph) (id : NodeId) : Prop :=
  ∃ n, g.node? id = some n ∧ g.catalog.isMerge n.layerType = true

/-- A place in a forest is in order: inside the layer of a node is what follows the auxiliary outputs
of the node, and only a merging node has no layer. -/
def Settled (g : Graph) : NodeId × Option (List Layer) → Prop
  | (id, some inner) => ∀ x, x ∈ forestOuterIds inner ↔ ∃ a, g.Enters id a ∧ g.Leads none a x
  | (id, none) => g.Merging id

/-- An expansion from some heads on: the layers cover the edges, the ids are placed, and all places
are in order. -/
structure Expands (g : Graph) (heads : List NodeId) (exit : Option NodeId) (s : List NodeId)
    (layers : List Layer) (t : List NodeId) : Prop where
  covers : g.Covers heads exit layers
  adds : Adds s (forestPlacements layers) t
  settled : ∀ site ∈ forestSites layers, g.Settled site

theorem expands_nil (g : Graph) (exit : Option NodeId) (s : List NodeId) :
    g.Expands exit.toList exit s [] s :=
  ⟨g.covers_nil exit, .refl s, by simp [forestSites]⟩

end Graph

end LayerNet
