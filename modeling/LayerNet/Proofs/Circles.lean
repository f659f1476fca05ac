import LayerNet.Proofs.Placement

/-!
# Special nodes that capture each other

A node inside a subgraph is placed with the layer of its special node, so it is placed if the special
nodes around it lead outside one after the other (`Rooted`).  Nothing keeps special nodes from
capturing each other in a circle, and then validation finds no fault, but the whole circle is missing
from the forest: compilation places all nodes exactly if there is no such circle
(`Built.places_all_iff`).  `circle` is the smallest network with one.
-/

namespace LayerNet.Graph

open Layer Relation

variable {g : Graph} {config : CompilerConfig} {forest : List Layer} {id s : NodeId}

/-- The special nodes around a node lead outside. -/
inductive Rooted (g : Graph) : NodeId → Prop
  | outside {id : NodeId} : (∀ s, id ∉ g.subgraph s) → Rooted g id
  | inside {s id : NodeId} : id ∈ g.subgraph s → Rooted g s → Rooted g id

/-- A special node captures itself by way of others. -/
def Circular (g : Graph) : Prop := ∃ s, TransGen (fun s id => id ∈ g.subgraph s) s s

/-- No special node on the way outside captures itself. -/
theorem Rooted.not_circular (h : g.Rooted id) (hs : g.Sound) :
    ¬TransGen (fun s id => id ∈ g.subgraph s) id id := by
  induction h with
  | outside hfree =>
    intro hcircle
    obtain ⟨s, -, hlast⟩ := TransGen.tail'_iff.1 hcircle
    exact hfree s hlast
  | @inside s id hid _ ih =>
    intro hcircle
    obtain ⟨t, hfirst, hlast⟩ := TransGen.tail'_iff.1 hcircle
    rw [hs.single hlast hid] at hfirst
    exact ih (TransGen.head' hid hfirst)

theorem rooted_of_not_circular (h : ¬g.Circular) (hw : g.WellFormed) (id : NodeId) :
    g.Rooted id := by
  have hwf : WellFounded fun s id => id ∈ g.subgraph s := by
    refine wellFounded_of_acyclic g.ids (fun s id hid => ?_) (not_exists.1 h)
    obtain ⟨n, hn, -⟩ := hw.isSpecial_of_mem_subgraph hid
    exact mem_ids_of_node? hn
  induction id using hwf.induction with
  | _ id ih =>
    by_cases hfree : ∀ s, id ∉ g.subgraph s
    · exact .outside hfree
    · push Not at hfree
      obtain ⟨s, hs⟩ := hfree
      exact .inside hs (ih s hs)

/-- A node is placed if and only if the special nodes around it lead outside. -/
theorem Built.mem_forestPlacements (hg : g.Built) (h : g.compile config = .ok forest) :
    id ∈ forestPlacements forest ↔ id ∈ g.ids ∧ g.Rooted id := by
  have hvalid := hg.edited.valid
  have hw := hvalid.wellFormed
  constructor
  · refine forestPlacements_induction (motive := fun id => id ∈ g.ids ∧ g.Rooted id) forest
      (fun owner inner hsite howner id hid => ?_) (fun id hid => ?_) id
    · have hid := (hvalid.mem_inner h hsite).1 hid
      exact ⟨mem_ids_of_mem_subgraph hid, .inside hid howner.2⟩
    · obtain ⟨hid, hfree⟩ := (hvalid.mem_forestOuterIds h).1 hid
      exact ⟨hid, .outside (hw.isCaptured_eq_false_iff.1 hfree)⟩
  · rintro ⟨hid, hroot⟩
    induction hroot with
    | outside hfree =>
      exact (mem_forestPlacements_iff forest).2
        (Or.inl ((hvalid.mem_forestOuterIds h).2 ⟨hid, hw.isCaptured_eq_false_iff.2 hfree⟩))
    | @inside s id hsub _ ih =>
      obtain ⟨n, hn, hspecial⟩ := hw.isSpecial_of_mem_subgraph hsub
      have hplaced := ih (mem_ids_of_node? hn)
      rw [forestPlacements_eq_map_sites] at hplaced
      obtain ⟨⟨owner, inner⟩, hsite, rfl⟩ := List.mem_map.1 hplaced
      cases inner with
      | none =>
        -- a special node always has a layer of its own
        obtain ⟨n', hn', hmerge⟩ := hvalid.merging_of_site h hsite
        obtain rfl : n = n' := Option.some.inj (hn.symm.trans hn')
        rw [hg.not_merging_of_special hn hspecial] at hmerge
        cases hmerge
      | some inner =>
        exact (mem_forestPlacements_iff forest).2
          (Or.inr ⟨owner, inner, hsite, (hvalid.mem_inner h hsite).2 hsub⟩)

/-- Compilation places all nodes exactly if no special node captures itself by way of others. -/
theorem Built.places_all_iff (hg : g.Built) (h : g.compile config = .ok forest) :
    (∀ id ∈ g.ids, id ∈ forestPlacements forest) ↔ ¬g.Circular := by
  have hw := hg.edited.wellFormed
  have hs := (expands_of_compile hw h).1
  constructor
  · rintro hall ⟨s, hcircle⟩
    obtain ⟨t, hsub, -⟩ := TransGen.head'_iff.1 hcircle
    obtain ⟨n, hn, -⟩ := hw.isSpecial_of_mem_subgraph hsub
    have hroot := ((hg.mem_forestPlacements h).1 (hall s (mem_ids_of_node? hn))).2
    exact hroot.not_circular hs hcircle
  · exact fun hcircle id hid =>
      (hg.mem_forestPlacements h).2 ⟨hid, rooted_of_not_circular hcircle hw id⟩

/-- Two layers in a row, and two special nodes each of which captures the other one. -/
def circle : Graph :=
  (createAll {} ["LayerDense", "LayerDense", "LayerStacked", "LayerStacked"]).connectAll
    [(.output 0, .input 1), (.aux 2 0, .input 3), (.output 3, .aux 2 1), (.aux 3 0, .input 2),
      (.output 2, .aux 3 1)]

theorem circle_compiles_without_special_nodes : ∃ forest, circle.compile {} = .ok forest ∧
    ¬∀ id ∈ circle.ids, id ∈ forestPlacements forest := by
  have hok : (circle.compile {}).toOption.isSome = true := by decide +kernel
  cases h : circle.compile {} with
  | error e =>
    rw [h] at hok
    cases hok
  | ok forest =>
    have hbuilt : circle.Built := (Built.new.createAll _).connectAll _
    have hcircle : circle.Circular :=
      ⟨2, .tail (.single (by decide +kernel : 3 ∈ circle.subgraph 2))
        (by decide +kernel : 2 ∈ circle.subgraph 3)⟩
    exact ⟨forest, rfl, fun hall => (hbuilt.places_all_iff h).1 hall hcircle⟩

end LayerNet.Graph
