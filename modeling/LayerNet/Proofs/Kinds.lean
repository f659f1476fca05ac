import LayerNet.Proofs.History

/-!
# The kinds of nodes

What a node is, its special kind and its layer type, is settled when it is put into the graph.
Joining and separating ports changes no kind (`kind?_connect`, `kind?_disconnect`), and a graph built
from created nodes has only nodes of the kinds that its catalog tells (`Built.kind_eq`).
-/

namespace LayerNet.Graph

variable {g : Graph} {id : NodeId} {n : Node}

/-- The special kind and the layer type of a node. -/
def kind? (g : Graph) (id : NodeId) : Option (Option SpecialKind × String) :=
  (g.node? id).map fun n => (n.special, n.layerType)

theorem kind?_of_node? (h : g.node? id = some n) : g.kind? id = some (n.special, n.layerType) := by
  rw [kind?, h, Option.map_some]

theorem mem_ids_iff_kind? : id ∈ g.ids ↔ (g.kind? id).isSome = true := by
  rw [mem_ids, kind?, Option.isSome_map]

/-! ## Changes of ports -/

theorem kind?_modifyNode (g : Graph) {f : Node → Node} (h : ∀ n, (f n).id = n.id)
    (hf : ∀ n, ((f n).special, (f n).layerType) = (n.special, n.layerType)) (i : NodeId) :
    (g.modifyNode id f h).kind? i = g.kind? i := by
  rw [kind?, node?_modifyNode, kind?]
  split
  · rw [Option.map_map]
    cases g.node? i with
    | none => rfl
    | some n => exact congrArg some (hf n)
  · rfl

@[simp] theorem kind?_modifyPort (g : Graph) (p : PortRef) (f : Port → Port) (i : NodeId) :
    (g.modifyPort p f).kind? i = g.kind? i :=
  kind?_modifyNode g _ (fun n => by cases p.slot <;> rfl) i

@[simp] theorem kind?_connect (g : Graph) (a b : PortRef) (i : NodeId) :
    (g.connect a b).1.kind? i = g.kind? i := by
  rcases connect_cases g a b with h | ⟨h, -⟩
  · rw [h]
  · rw [h, link, kind?_modifyPort, kind?_modifyPort]

@[simp] theorem kind?_disconnect (g : Graph) (a b : PortRef) (i : NodeId) :
    (g.disconnect a b).kind? i = g.kind? i := by
  rw [disconnect, unlink, kind?_modifyPort, kind?_modifyPort]

@[simp] theorem kind?_disconnectAll (g : Graph) (id i : NodeId) :
    (g.disconnectAll id).kind? i = g.kind? i :=
  disconnectAll_invariant (fun g => g.kind? i) id (fun _ _ => kind?_modifyPort ..)
    (fun g => kind?_modifyNode g (f := fun n => n.mapPorts Port.severed) _ (fun _ => rfl) i) g

theorem kind?_removeNode (g : Graph) (id i : NodeId) :
    (g.removeNode id).1.kind? i = if i = id then none else g.kind? i := by
  rw [kind?, node?_removeNode]
  split
  · rfl
  · rw [← kind?, kind?_disconnectAll]

theorem kind?_insertAs (g : Graph) (id i : NodeId) (n : Node) :
    (g.insertAs id n).kind? i = if i = id then some (n.special, n.layerType) else g.kind? i := by
  rw [kind?, node?_insertAs]
  split
  · rfl
  · rename_i h
    rw [← kind?]
    split
    · rw [kind?_removeNode, if_neg h]
    · rfl

/-! ## The catalog -/

@[simp] theorem catalog_connect (g : Graph) (a b : PortRef) :
    (g.connect a b).1.catalog = g.catalog := by
  rcases connect_cases g a b with h | ⟨h, -⟩
  · rw [h]
  · rw [h]
    rfl

@[simp] theorem catalog_disconnectAll (g : Graph) (id : NodeId) :
    (g.disconnectAll id).catalog = g.catalog :=
  disconnectAll_invariant catalog id (fun _ _ => rfl) (fun _ => rfl) g

@[simp] theorem catalog_removeNode (g : Graph) (id : NodeId) :
    (g.removeNode id).1.catalog = g.catalog := catalog_disconnectAll g id

@[simp] theorem catalog_insertAs (g : Graph) (id : NodeId) (n : Node) :
    (g.insertAs id n).catalog = g.catalog := by
  have hfree : (if (g.node? id).isSome then (g.removeNode id).1 else g).catalog = g.catalog := by
    split
    · exact catalog_removeNode g id
    · rfl
  exact hfree

/-! ## Built graphs -/

/-- The graphs that creating and removing nodes and connecting and disconnecting ports leads to, from
an empty graph with the built-in layer types on. -/
inductive Built : Graph → Prop
  | new : Built {}
  | createNode {g : Graph} (layerType : String) (position : Position) :
    Built g → Built (g.createNode layerType position).1
  | connect {g : Graph} (a b : PortRef) : Built g → Built (g.connect a b).1
  | disconnect {g : Graph} (a b : PortRef) : Built g → Built (g.disconnect a b)
  | removeNode {g : Graph} (id : NodeId) : Built g → Built (g.removeNode id).1

theorem Built.edited (h : g.Built) : g.Edited := by
  induction h with
  | new => exact .empty Catalog.builtin
  | createNode layerType position _ ih => exact .createNode layerType position ih
  | connect a b _ ih => exact .connect a b ih
  | disconnect a b _ ih => exact .disconnect a b ih
  | removeNode id _ ih => exact .removeNode id ih

/-- New nodes, one after the other. -/
def createAll (g : Graph) (layerTypes : List String) : Graph :=
  layerTypes.foldl (fun g layerType => (g.createNode layerType default).1) g

/-- Connections between ports, one after the other. -/
def connectAll (g : Graph) (edges : List (PortRef × PortRef)) : Graph :=
  edges.foldl (fun g edge => (g.connect edge.1 edge.2).1) g

theorem Built.createAll (h : g.Built) (layerTypes : List String) :
    (g.createAll layerTypes).Built := by
  induction layerTypes generalizing g with
  | nil => exact h
  | cons layerType rest ih => exact ih (.createNode layerType default h)

theorem Built.connectAll (h : g.Built) (edges : List (PortRef × PortRef)) :
    (g.connectAll edges).Built := by
  induction edges generalizing g with
  | nil => exact h
  | cons edge rest ih => exact ih (.connect edge.1 edge.2 h)

/-- The nodes of a built graph have the special kinds of their built-in layer types. -/
theorem Built.kind_eq (h : g.Built) : g.catalog = Catalog.builtin ∧
    ∀ id n, g.node? id = some n → n.special = Catalog.builtin.specialKind n.layerType := by
  have hkinds : g.catalog = Catalog.builtin ∧ ∀ id kind, g.kind? id = some kind →
      kind.1 = Catalog.builtin.specialKind kind.2 := by
    induction h with
    | new => exact ⟨rfl, fun id kind h => by cases h⟩
    | @createNode g layerType position _ ih =>
      refine ⟨(catalog_insertAs ..).trans ih.1, fun id kind hkind => ?_⟩
      rw [Graph.createNode, addNode, kind?_insertAs] at hkind
      split at hkind
      · cases hkind
        exact congrArg (·.specialKind layerType) ih.1
      · exact ih.2 id kind hkind
    | connect a b _ ih => simpa using ih
    | disconnect a b _ ih => exact ⟨ih.1, fun id kind hkind => ih.2 id kind (by simpa using hkind)⟩
    | removeNode id _ ih =>
      refine ⟨(catalog_removeNode ..).trans ih.1, fun i kind hkind => ?_⟩
      rw [kind?_removeNode] at hkind
      split at hkind
      · cases hkind
      · exact ih.2 i kind hkind
  exact ⟨hkinds.1, fun id n hn => hkinds.2 id _ (kind?_of_node? hn)⟩

/-- No built-in layer type is both special and merging. -/
theorem Built.not_merging_of_special (h : g.Built) (hn : g.node? id = some n)
    (hspecial : n.isSpecial = true) : g.catalog.isMerge n.layerType = false := by
  obtain ⟨hcatalog, hkinds⟩ := h.kind_eq
  have hkind := hkinds id n hn
  rw [Node.isSpecial, hkind, Catalog.specialKind] at hspecial
  rw [hcatalog, Catalog.isMerge]
  cases ht : Catalog.builtin.get? n.layerType with
  | none => rfl
  | some t =>
    rw [ht, Option.bind_some] at hspecial
    have hall : ∀ t ∈ Catalog.builtin.toList, t.special.isSome = true → t.merges = false := by
      decide
    exact hall t (Keyed.mem_of_get? ht) hspecial

end LayerNet.Graph
