import LayerNet.Proofs.Faithful
import LayerNet.Proofs.Kinds

/-!
# Compiled forests

What a compiled forest says about an edited graph.

* `Edited.nodup_edges_of_compile` — read as a pipeline, the forest shows each primary edge between
  nodes that are not captured once, and no other pair of nodes.
* `Edited.placements_of_compile` — no node is placed twice, outside of all subgraphs are exactly the
  nodes that are not captured, and inside the layer of a node is exactly what it captures.
-/

namespace LayerNet.Graph

open Layer

variable {g : Graph} {config : CompilerConfig} {forest : List Layer} {id s : NodeId}

theorem WellFormed.isCaptured_eq_false_iff (hw : g.WellFormed) :
    g.isCaptured id = false ↔ ∀ s, id ∉ g.subgraph s := by
  rw [← Bool.not_eq_true, hw.isCaptured_iff, not_exists]

/-- A special node and a plain one between a node and the merge of both, with a subgraph of two. -/
def sample : Graph :=
  (createAll {} ["LayerDense", "LayerStacked", "LayerDense", "LayerParallelSum", "LayerDense",
    "LayerDense"]).connectAll
    [(.output 0, .input 1), (.output 0, .input 2), (.output 1, .input 3), (.output 2, .input 3),
      (.aux 1 0, .input 4), (.output 4, .input 5), (.output 5, .aux 1 1)]

theorem edited_sample : sample.Edited := ((Built.new.createAll _).connectAll _).edited

theorem exists_forest_of_isSome (h : (g.compile config).toOption.isSome = true) :
    ∃ forest, g.compile config = .ok forest := by
  cases hforest : g.compile config with
  | error e =>
    rw [hforest] at h
    cases h
  | ok forest => exact ⟨forest, rfl⟩

theorem compile_sample : ∃ forest, sample.compile {} = .ok forest :=
  exists_forest_of_isSome (by decide +kernel)

/-! ## Nodes -/

/-- Outside of all subgraphs are the nodes that are not captured. -/
theorem Valid.mem_forestOuterIds (hg : g.Valid) (h : g.compile config = .ok forest) :
    id ∈ forestOuterIds forest ↔ id ∈ g.ids ∧ g.isCaptured id = false := by
  obtain ⟨hs, t, hexpands⟩ := expands_of_compile hg.wellFormed h
  rw [hg.wellFormed.isCaptured_eq_false_iff]
  constructor
  · intro hid
    obtain ⟨a, ha, hpath⟩ := hexpands.covers.reached id hid
    obtain ⟨hmem, -, hfree⟩ := hg.wellFormed.of_mem_realInputs ha
    exact ⟨hg.wellFormed.leads_mem_ids hpath hmem,
      fun s => hs.not_captured_of_leads hg.wellFormed hpath hfree s⟩
  · rintro ⟨hid, hfree⟩
    obtain ⟨a, ha, hpath⟩ := hs.exists_realInput hg hid hfree
    exact hexpands.covers.mem_of_leads ha (leads_none_iff.2 hpath)

theorem Valid.nodup_forestPlacements (hg : g.Valid) (h : g.compile config = .ok forest) :
    (forestPlacements forest).Nodup := by
  obtain ⟨-, t, hexpands⟩ := expands_of_compile hg.wellFormed h
  have hperm := hexpands.adds.perm
  rw [List.append_nil] at hperm
  exact hperm.nodup_iff.1 (hexpands.adds.nodup List.nodup_nil)

/-- Inside the layer of a node is what it captures. -/
theorem Valid.mem_inner (hg : g.Valid) (h : g.compile config = .ok forest) {inner : List Layer}
    (hsite : (s, some inner) ∈ forestSites forest) :
    id ∈ forestOuterIds inner ↔ id ∈ g.subgraph s := by
  obtain ⟨hs, t, hexpands⟩ := expands_of_compile hg.wellFormed h
  rw [hs.mem_subgraph_iff hg]
  exact hexpands.settled _ hsite id

/-- Only a merging node is placed without a layer. -/
theorem Valid.merging_of_site (hg : g.Valid) (h : g.compile config = .ok forest)
    (hsite : (s, none) ∈ forestSites forest) : g.Merging s := by
  obtain ⟨-, t, hexpands⟩ := expands_of_compile hg.wellFormed h
  exact hexpands.settled _ hsite

/-- Placement is exact. -/
theorem Edited.placements_of_compile (hg : g.Edited) (h : g.compile config = .ok forest) :
    (forestPlacements forest).Nodup ∧
      (∀ id, id ∈ forestOuterIds forest ↔ id ∈ g.ids ∧ g.isCaptured id = false) ∧
      ∀ s inner, (s, some inner) ∈ forestSites forest →
        ∀ id, id ∈ forestOuterIds inner ↔ id ∈ g.subgraph s :=
  ⟨hg.valid.nodup_forestPlacements h, fun _ => hg.valid.mem_forestOuterIds h,
    fun _ _ hsite _ => hg.valid.mem_inner h hsite⟩

theorem placements_sample : ∃ forest, sample.compile {} = .ok forest ∧
    (forestPlacements forest).Nodup ∧ 3 ∈ forestOuterIds forest ∧ 4 ∉ forestOuterIds forest := by
  obtain ⟨forest, h⟩ := compile_sample
  obtain ⟨hnodup, houter, -⟩ := edited_sample.placements_of_compile h
  exact ⟨forest, h, hnodup, (houter 3).2 (by decide +kernel),
    fun h4 => absurd ((houter 4).1 h4) (by decide +kernel)⟩

/-! ## Edges -/

theorem nodup_outEdges (g : Graph) (ids : List NodeId) (h : ids.Nodup) :
    (ids.flatMap g.outEdges).Nodup := by
  refine List.nodup_flatMap.2 ⟨fun a _ => ?_, h.imp fun hab e ha hb => hab ?_⟩
  · exact (g.nodup_successors a).map fun b c e => (Prod.mk.inj e).2
  · exact (mem_outEdges.1 ha).1.symm.trans (mem_outEdges.1 hb).1

/-- A compiled forest stands for the primary edges between nodes that are not captured, each once. -/
theorem Edited.nodup_edges_of_compile (hg : g.Edited) (h : g.compile config = .ok forest) :
    (forestEdges none forest).Nodup ∧
      ∀ a b, (a, b) ∈ forestEdges none forest ↔
        PortRef.input b ∈ g.peers (.output a) ∧ g.isCaptured a = false ∧ g.isCaptured b = false := by
  obtain ⟨hs, t, hexpands⟩ := expands_of_compile hg.wellFormed h
  have hedges : (forestEdges none forest).Perm ((forestOuterIds forest).flatMap g.outEdges) := by
    simpa using hexpands.covers.edges none
  have houter : (forestOuterIds forest).Nodup :=
    (hg.valid.nodup_forestPlacements h).sublist (forestOuterIds_sublist forest)
  refine ⟨hedges.nodup_iff.2 (g.nodup_outEdges _ houter), fun a b => ?_⟩
  rw [hedges.mem_iff, List.mem_flatMap]
  constructor
  · rintro ⟨x, hx, he⟩
    obtain ⟨rfl, hab⟩ := mem_outEdges.1 he
    obtain ⟨-, hfree⟩ := (hg.valid.mem_forestOuterIds h).1 hx
    refine ⟨flows_iff.1 hab, hfree, hg.wellFormed.isCaptured_eq_false_iff.2 fun s hb => ?_⟩
    exact hg.wellFormed.isCaptured_eq_false_iff.1 hfree s
      ((hs.captures_iff_of_flows hg.wellFormed hab).2 hb)
  · rintro ⟨hab, hfree, -⟩
    have hab := flows_iff.2 hab
    exact ⟨a, (hg.valid.mem_forestOuterIds h).2 ⟨hab.mem_ids, hfree⟩, mem_outEdges.2 ⟨rfl, hab⟩⟩

theorem edges_sample : ∃ forest, sample.compile {} = .ok forest ∧
    (forestEdges none forest).Nodup ∧ (1, 3) ∈ forestEdges none forest ∧
      (4, 5) ∉ forestEdges none forest := by
  obtain ⟨forest, h⟩ := compile_sample
  obtain ⟨hnodup, hedges⟩ := edited_sample.nodup_edges_of_compile h
  exact ⟨forest, h, hnodup, (hedges 1 3).2 (by decide +kernel),
    fun h45 => absurd ((hedges 4 5).1 h45) (by decide +kernel)⟩

end LayerNet.Graph
