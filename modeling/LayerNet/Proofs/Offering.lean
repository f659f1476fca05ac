import LayerNet.Proofs.Building

/-!
# What an engine offers

A network is checked against the capabilities of an engine before it is built.  The check knows the
nodes only, their types and those of their parameters that the capabilities describe.  The
reductions of the groups come from the catalog, from a parameter or from the configuration, and the
check never asks for them.  The engine does, when it is to create the merges.

This is all the check leaves open.

* `Edited.build_cases` — a compiled network that passes the check is built with all its groups
  merged, or a merge is refused.
* `Edited.build_ok_iff_merges` — so it is built if and only if the engine offers the reduction of
  every group, and the only call that is refused is the creation of a merge.
-/

namespace LayerNet

open Layer Lowering

namespace Report

variable {r s : Report}

theorem hasErrors_eq_false_iff : r.hasErrors = false ↔ ∀ d ∈ r.diagnostics, d.isError = false := by
  simp [hasErrors]

theorem hasErrors_append : (r.append s).hasErrors = (r.hasErrors || s.hasErrors) := by
  simp [hasErrors, append]

end Report

namespace Layer

theorem length_branchHandles (branches : List Layer) (next : Handle) :
    (branchHandles next branches).length = branches.length := by
  induction branches generalizing next with
  | nil => rfl
  | cons branch branches ih => rw [branchHandles, List.length_cons, ih, List.length_cons]

mutual

theorem exists_group_of_mem_creations {reduction : Reduction} {merge : Option NodeId}
    {handles : List (List Handle)} : ∀ (layer : Layer) (next : Handle),
      .merge reduction merge handles ∈ creations next layer →
        ∃ branches, parallel reduction merge branches ∈ layer.parts ∧
          branches.length = handles.length
  | node _ inner _ children, next, h => by
    simp only [creations, List.mem_append, List.mem_cons, reduceCtorEq, false_or] at h
    rcases h with h | h
    · obtain ⟨branches, hpart, hlength⟩ := exists_group_of_mem_forestCreations inner _ h
      exact ⟨branches, by simp [parts, hpart], hlength⟩
    · obtain ⟨branches, hpart, hlength⟩ := exists_group_of_mem_forestCreations children _ h
      exact ⟨branches, by simp [parts, hpart], hlength⟩
  | sequence steps, next, h => by
    obtain ⟨branches, hpart, hlength⟩ := exists_group_of_mem_forestCreations steps next h
    exact ⟨branches, by simp [parts, hpart], hlength⟩
  | parallel _ _ children, next, h => by
    rw [creations, List.mem_append, List.mem_singleton] at h
    rcases h with h | h
    · obtain ⟨branches, hpart, hlength⟩ := exists_group_of_mem_forestCreations children next h
      exact ⟨branches, by simp [parts, hpart], hlength⟩
    · cases h
      exact ⟨children, by simp [parts], (length_branchHandles children next).symm⟩

/-- A merge is created for a group of the forest, of as many branches. -/
theorem exists_group_of_mem_forestCreations {reduction : Reduction} {merge : Option NodeId}
    {handles : List (List Handle)} : ∀ (forest : List Layer) (next : Handle),
      .merge reduction merge handles ∈ forestCreations next forest →
        ∃ branches, parallel reduction merge branches ∈ forestParts forest ∧
          branches.length = handles.length
  | [], _, h => absurd h List.not_mem_nil
  | layer :: layers, next, h => by
    rw [forestCreations, List.mem_append] at h
    rcases h with h | h
    · obtain ⟨branches, hpart, hlength⟩ := exists_group_of_mem_creations layer next h
      exact ⟨branches, List.mem_append_left _ hpart, hlength⟩
    · obtain ⟨branches, hpart, hlength⟩ := exists_group_of_mem_forestCreations layers _ h
      exact ⟨branches, List.mem_append_right _ hpart, hlength⟩

end

/-- Every group is merged. -/
theorem exists_merge_of_mem_forestParts {forest : List Layer} {reduction : Reduction}
    {merge : Option NodeId} {branches : List Layer}
    (h : parallel reduction merge branches ∈ forestParts forest) (next : Handle) :
    ∃ handles, .merge reduction merge handles ∈ forestCreations next forest := by
  have hown : parallel reduction merge [] ∈ (forestParts forest).filterMap own? :=
    List.mem_filterMap.2 ⟨_, h, rfl⟩
  obtain ⟨c, hc, hmade⟩ :=
    List.mem_map.1 ((map_made_forestCreations_perm forest next).mem_iff.2 hown)
  cases c with
  | layer source handles links => cases hmade
  | merge reduction' merge' handles =>
    cases hmade
    exact ⟨handles, hc⟩

end Layer

namespace Capabilities

variable {c : Capabilities} {g : Graph} {n : Node}

/-- Merges may have the reduction: it is listed, or no reductions are listed at all. -/
def Merges (c : Capabilities) (reduction : Reduction) : Prop :=
  c.reductions.isEmpty = true ∨ c.reductions.contains reduction.name = true

/-- All groups of the forest may be merged by their reductions. -/
def MergesAll (c : Capabilities) (forest : List Layer) : Prop :=
  ∀ part ∈ forestParts forest, ∀ reduction, part.reduction? = some reduction → c.Merges reduction

theorem contains_of_checkNode (h : ∀ d ∈ c.checkNode n, d.isError = false) :
    c.layerTypes.contains n.layerType = true := by
  by_contra hunknown
  rw [checkNode, if_neg hunknown] at h
  exact absurd (h _ (List.mem_singleton_self _)) (by simp [Diagnostic.isError, Diagnostic.error])

/-- If the check finds no error, all types are known. -/
theorem contains_of_checkNodes (h : (c.checkNodes g).hasErrors = false) {id : NodeId}
    (hn : g.node? id = some n) : c.layerTypes.contains n.layerType = true := by
  rw [Report.hasErrors_eq_false_iff] at h
  exact contains_of_checkNode fun d hd =>
    h d (List.mem_flatMap.2 ⟨n, Keyed.mem_of_get? hn, hd⟩)

theorem checkReduction_eq_ok_iff {reduction : Reduction} :
    ({ capabilities := some c } : RecordingEngine).checkReduction reduction.name = .ok () ↔
      c.Merges reduction := by
  rw [RecordingEngine.checkReduction, Merges, ← Bool.or_eq_true]
  dsimp only
  split
  · rename_i h
    exact iff_of_true rfl h
  · rename_i h
    exact iff_of_false (by simp) h

end Capabilities

namespace Graph

variable {g : Graph} {config : CompilerConfig} {forest : List Layer} {c : Capabilities}

/-- If all types are known, only merges by other reductions than those on offer are refused. -/
theorem group_of_check {creation : Creation} {refusal : EngineError}
    (h : g.compile config = .ok forest) (hnodes : (c.checkNodes g).hasErrors = false)
    (hmem : creation ∈ forestCreations 0 forest)
    (hcheck : creation.check { capabilities := some c } = .error refusal) :
    ∃ reduction merge branches, .parallel reduction merge branches ∈ forestParts forest ∧
      ¬c.Merges reduction ∧ creation.step = .creatingMerge reduction branches.length ∧
      refusal = .unknownReduction reduction.name := by
  cases creation with
  | layer source handles links =>
    obtain ⟨part, hpart, hown⟩ := exists_part_of_mem_forestCreations hmem
    cases part with
    | node source' inner links' children =>
      cases hown
      obtain ⟨n, hn, hsource, -⟩ := (formed_of_compile h hpart).of_node
      rw [Creation.check, RecordingEngine.checkLayerType, hsource] at hcheck
      dsimp only at hcheck
      rw [if_pos (Capabilities.contains_of_checkNodes hnodes hn)] at hcheck
      cases hcheck
    | sequence steps => cases hown
    | parallel reduction merge branches => cases hown
  | merge reduction merge handles =>
    obtain ⟨branches, hpart, hlength⟩ := exists_group_of_mem_forestCreations forest 0 hmem
    have hunknown : ¬c.Merges reduction := fun hknown => by
      rw [Creation.check, Capabilities.checkReduction_eq_ok_iff.2 hknown] at hcheck
      cases hcheck
    rw [Creation.check, RecordingEngine.checkReduction] at hcheck
    dsimp only at hcheck
    rw [if_neg (by rwa [Bool.or_eq_true])] at hcheck
    refine ⟨reduction, merge, branches, hpart, hunknown, ?_, (Except.error.inj hcheck).symm⟩
    rw [Creation.step, hlength]

/-- An engine that created everything merges all groups. -/
theorem mergesAll_of_check
    (h : ∀ d ∈ forestCreations 0 forest, d.check { capabilities := some c } = .ok ()) :
    c.MergesAll forest := by
  intro part hpart reduction hreduction
  cases part with
  | node source inner links children => cases hreduction
  | sequence steps => cases hreduction
  | parallel reduction' merge branches =>
    cases hreduction
    obtain ⟨handles, hmem⟩ := exists_merge_of_mem_forestParts hpart 0
    exact Capabilities.checkReduction_eq_ok_iff.1 (h _ hmem)

/-- The two runs of a building, for a compiled network that passes the check: all is created, or a
merge is refused. -/
theorem Edited.build_cases (hg : g.Edited) (hnodes : (c.checkNodes g).hasErrors = false)
    (h : g.compile config = .ok forest) :
    let answer := (g.build config ({ capabilities := some c } : RecordingEngine)).1
    (answer = .ok (forestHandles 0 forest) ∧ c.MergesAll forest) ∨
      ∃ reduction merge branches, .parallel reduction merge branches ∈ forestParts forest ∧
        ¬c.Merges reduction ∧ answer = .error (.engine (.creatingMerge reduction branches.length)
          (.unknownReduction reduction.name)) := by
  intro answer
  have hbuild :
      answer = ((lower forest).runIn ({ capabilities := some c } : RecordingEngine)).1 := by
    simp only [answer, build, h]
  rw [hbuild]
  rcases RecordingEngine.lower_runIn (hg.valid.wired_of_compile h)
    (hg.valid.nodup_forestPlacements h) (some c) with
      ⟨hall, hrun⟩ | ⟨d, hd, refusal, e', hcheck, hrun⟩
  · exact Or.inl ⟨congrArg Prod.fst hrun, mergesAll_of_check hall⟩
  · obtain ⟨reduction, merge, branches, hpart, hunknown, hstep, rfl⟩ :=
      group_of_check h hnodes hd hcheck
    rw [hstep] at hrun
    exact Or.inr ⟨reduction, merge, branches, hpart, hunknown, congrArg Prod.fst hrun⟩

/-- A compiled network that passes the check is built if and only if the engine offers the
reductions of all groups, and whenever it is built it has the layers of the top level.  What the
engine may refuse is to merge a group by a reduction that it does not offer, and nothing else. -/
theorem Edited.build_ok_iff_merges (hg : g.Edited) (hnodes : (c.checkNodes g).hasErrors = false)
    (h : g.compile config = .ok forest) :
    let answer := (g.build config ({ capabilities := some c } : RecordingEngine)).1
    ((∃ handles, answer = .ok handles) ↔ c.MergesAll forest) ∧
    (∀ handles, answer = .ok handles → handles = forestHandles 0 forest) ∧
    ∀ e, answer = .error e →
      ∃ reduction merge branches, .parallel reduction merge branches ∈ forestParts forest ∧
        ¬c.Merges reduction ∧ e = .engine (.creatingMerge reduction branches.length)
          (.unknownReduction reduction.name) := by
  intro answer
  rcases hg.build_cases hnodes h with
    ⟨hbuilt, hmerges⟩ | ⟨reduction, merge, branches, hpart, hunknown, hrefused⟩
  · rw [show answer = .ok (forestHandles 0 forest) from hbuilt]
    refine ⟨iff_of_true ⟨_, rfl⟩ hmerges, ?_, ?_⟩
    · rintro handles ⟨⟩
      rfl
    · exact fun e he => nomatch he
  · rw [show answer = .error _ from hrefused]
    refine ⟨iff_of_false ?_ fun hmerges => hunknown (hmerges _ hpart reduction rfl), ?_, ?_⟩
    · rintro ⟨handles, ⟨⟩⟩
    · exact fun handles hok => nomatch hok
    · rintro e ⟨⟩
      exact ⟨reduction, merge, branches, hpart, hunknown, rfl⟩

/-- Two chains of two layers that never meet. -/
def apart : Graph :=
  (createAll {} ["LayerDense", "LayerSoftmax", "LayerDense", "LayerSoftmax"]).connectAll
    [(.output 0, .input 1), (.output 2, .input 3)]

theorem edited_apart : apart.Edited := ((Built.new.createAll _).connectAll _).edited

/-- An engine that knows the two types and merges by the given reductions only. -/
def offering (reductions : List String) : Capabilities :=
  { layerTypes := Keyed.ofList ["LayerDense", "LayerSoftmax"]
    reductions := Keyed.ofList reductions }

theorem compile_apart : ∃ forest, apart.compile {} = .ok forest :=
  exists_forest_of_isSome (by decide +kernel)

/-- The chains are merged by the reduction of the configuration; the check does not ask for it. -/
theorem build_apart_refused : apart.Edited ∧
    ((offering ["sum"]).checkNodes apart).hasErrors = false ∧
    (∃ forest, apart.compile {} = .ok forest) ∧
    (apart.build {} ({ capabilities := some (offering ["sum"]) } : RecordingEngine)).1 =
      .error (.engine (.creatingMerge .concat 2) (.unknownReduction "concat")) :=
  ⟨edited_apart, by decide +kernel, compile_apart, by decide +kernel⟩

/-- They are built where no reductions are listed, and not merged where only sums are. -/
theorem build_apart_iff_merges : ∃ forest, apart.compile {} = .ok forest ∧
    (apart.build {} ({ capabilities := some (offering []) } : RecordingEngine)).1 =
      .ok (forestHandles 0 forest) ∧
    ¬(offering ["sum"]).MergesAll forest := by
  obtain ⟨forest, h⟩ := compile_apart
  obtain ⟨hempty, hhandles, -⟩ :=
    edited_apart.build_ok_iff_merges (c := offering []) (by decide +kernel) h
  obtain ⟨hsum, -⟩ := edited_apart.build_ok_iff_merges (c := offering ["sum"]) (by decide +kernel) h
  obtain ⟨handles, hbuilt⟩ := hempty.2 fun _ _ _ _ => Or.inl rfl
  refine ⟨forest, h, hhandles handles hbuilt ▸ hbuilt, fun hmerges => ?_⟩
  obtain ⟨handles', hbuilt'⟩ := hsum.2 hmerges
  have hrefused : (apart.build {} ({ capabilities := some (offering ["sum"]) } :
      RecordingEngine)).1.toOption = none := by decide +kernel
  rw [hbuilt'] at hrefused
  cases hrefused

end Graph

end LayerNet
