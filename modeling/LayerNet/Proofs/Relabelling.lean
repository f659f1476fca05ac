import LayerNet.Proofs.Parts
import LayerNet.Proofs.Recasting

/-!
# What the default reduction decides

A configuration names a default reduction, and that is all that it says.  The compiler puts it on
the groups whose nodes declare none, and looks at it for nothing else:
`Edited.compile_relabelled`.  Hence two configurations never disagree on whether a network is
compiled or why not, and the forests have the same shape (`Edited.default_only_labels`).

The compilations under two configurations run side by side.  Their groups are made at two
places.  Where heads meet, several branches arrive; in a sound network the point is then a merging
node, so that the group names it and the declaration is found again from the name.  Chains that
stay apart make a group without a node, and nothing is declared for it.
-/

namespace LayerNet

/-! ## The reductions in a tree -/

namespace Layer

mutual

/-- A tree in which every group has the reduction that belongs to its merging node. -/
def relabel (label : Option NodeId → Reduction) : Layer → Layer
  | node source inner links children =>
    node source (forestRelabel label inner) links (forestRelabel label children)
  | sequence steps => sequence (forestRelabel label steps)
  | parallel _ merge branches => parallel (label merge) merge (forestRelabel label branches)

/-- A forest in which every group has the reduction that belongs to its merging node. -/
def forestRelabel (label : Option NodeId → Reduction) : List Layer → List Layer
  | [] => []
  | layer :: layers => relabel label layer :: forestRelabel label layers

end

variable (label label' : Option NodeId → Reduction)

theorem forestRelabel_eq_map (forest : List Layer) :
    forestRelabel label forest = forest.map (relabel label) := by
  induction forest with
  | nil => rfl
  | cons layer forest ih => rw [forestRelabel, ih, List.map_cons]

mutual

theorem relabel_relabel : ∀ layer : Layer,
    relabel label' (relabel label layer) = relabel label' layer
  | node source inner links children => by
    rw [relabel, relabel, forestRelabel_forestRelabel inner, forestRelabel_forestRelabel children,
      relabel]
  | sequence steps => by rw [relabel, relabel, forestRelabel_forestRelabel steps, relabel]
  | parallel reduction merge branches => by
    rw [relabel, relabel, forestRelabel_forestRelabel branches, relabel]

/-- Of two labellings the later one stays. -/
theorem forestRelabel_forestRelabel : ∀ forest : List Layer,
    forestRelabel label' (forestRelabel label forest) = forestRelabel label' forest
  | [] => rfl
  | layer :: layers => by
    rw [forestRelabel, forestRelabel, relabel_relabel layer, forestRelabel_forestRelabel layers,
      forestRelabel]

end

section

variable {label} {reduction : Reduction} {merge : Option NodeId} {branches : List Layer}

mutual

theorem reduction_of_mem_parts : ∀ layer : Layer,
    parallel reduction merge branches ∈ (relabel label layer).parts → reduction = label merge
  | node source inner links children, h => by
    rw [relabel, parts, List.mem_cons, List.mem_append] at h
    rcases h with h | h | h
    · cases h
    · exact reduction_of_mem_forestParts inner h
    · exact reduction_of_mem_forestParts children h
  | sequence steps, h => by
    rw [relabel, parts, List.mem_cons] at h
    rcases h with h | h
    · cases h
    · exact reduction_of_mem_forestParts steps h
  | parallel _ _ inner, h => by
    rw [relabel, parts, List.mem_cons] at h
    rcases h with h | h
    · cases h
      rfl
    · exact reduction_of_mem_forestParts inner h

/-- All groups of a labelled forest have their labels. -/
theorem reduction_of_mem_forestParts : ∀ forest : List Layer,
    parallel reduction merge branches ∈ forestParts (forestRelabel label forest) →
      reduction = label merge
  | [], h => absurd h List.not_mem_nil
  | layer :: layers, h => by
    rw [forestRelabel, forestParts, List.mem_append] at h
    rcases h with h | h
    · exact reduction_of_mem_parts layer h
    · exact reduction_of_mem_forestParts layers h

end

end

end Layer

open Layer

namespace Graph

variable {g : Graph} {config config' : CompilerConfig}

/-! ## Reductions and what declares them -/

/-- The reduction that a node declares by its layer type and its first parameter. -/
def declared? (g : Graph) (id : NodeId) : Option Reduction :=
  (g.node? id).bind fun n => g.catalog.reductionFor n.layerType n.stringParams

/-- The reduction of a group with the given merging node. -/
def labelOf (g : Graph) (config : CompilerConfig) (merge : Option NodeId) : Reduction :=
  (merge.bind g.declared?).getD config.defaultReduction

/-- The reductions of a forest are those that the merging nodes of the groups declare; a group whose
merging node declares none, or that has no merging node, has the default one. -/
structure Labelled (g : Graph) (config : CompilerConfig) (forest : List Layer) : Prop where
  declared : ∀ reduction merge branches,
    .parallel reduction (some merge) branches ∈ forestParts forest →
      ∀ chosen, g.declared? merge = some chosen → reduction = chosen
  undeclared : ∀ reduction merge branches,
    .parallel reduction (some merge) branches ∈ forestParts forest →
      g.declared? merge = none → reduction = config.defaultReduction
  apart : ∀ reduction branches, .parallel reduction none branches ∈ forestParts forest →
    reduction = config.defaultReduction

theorem labelled_relabel (g : Graph) (config : CompilerConfig) (forest : List Layer) :
    g.Labelled config (forestRelabel (g.labelOf config) forest) where
  declared reduction merge branches hpart chosen hchosen := by
    rw [reduction_of_mem_forestParts forest hpart, labelOf, Option.bind_some, hchosen,
      Option.getD_some]
  undeclared reduction merge branches hpart hnone := by
    rw [reduction_of_mem_forestParts forest hpart, labelOf, Option.bind_some, hnone,
      Option.getD_none]
  apart reduction branches hpart := by
    rw [reduction_of_mem_forestParts forest hpart, labelOf, Option.bind_none, Option.getD_none]

/-! ## Two configurations -/

/-- Where several branches arrive there is a merging node, which the group names. -/
theorem Sound.groupAt_eq (hs : g.Sound) {point : NodeId} (hseveral : 2 ≤ g.arrivals point)
    (config : CompilerConfig) (branches : List Layer) :
    g.groupAt config point branches =
      .parallel (g.labelOf config (some point)) (some point) branches := by
  have hpeers : 0 < (g.peers (.input point)).length :=
    Nat.lt_of_lt_of_le Nat.zero_lt_two (hseveral.trans (g.arrivals_le point))
  obtain ⟨q, hq⟩ := List.exists_mem_of_length_pos hpeers
  have hpoint : point ∈ g.ids := mem_ids_of_mem_peers hq
  obtain ⟨n, hn, hmerges⟩ := hs.merging hpoint hseveral
  rw [groupAt, labelOf, Option.bind_some, declared?, hn, Option.any_some, if_pos hmerges]

/-- The compilations under two configurations make the same layers but for the labels of groups. -/
theorem Sound.recast (hs : g.Sound) (config config' : CompilerConfig) :
    g.Recast (relabel (g.labelOf config')) g config config' where
  alike := .refl g
  peers_output _ := rfl
  heads id n n' hn hn' := by
    rw [hn, Option.some.injEq] at hn'
    rw [hn']
  special id n n' hn hn' source inner children := by
    rw [hn, Option.some.injEq] at hn'
    rw [relabel, forestRelabel_eq_map, forestRelabel_eq_map, hn']
  plain source children := by
    rw [relabel, forestRelabel_eq_map, forestRelabel_eq_map, List.map_nil]
  sequence steps := by rw [relabel, forestRelabel_eq_map]
  group point branches hseveral := by
    rw [hs.groupAt_eq hseveral, hs.groupAt_eq hseveral, relabel, forestRelabel_eq_map]
  apart branches := by
    rw [relabel, forestRelabel_eq_map]
    rfl

/-- What an edited graph is compiled to under one configuration is what it is compiled to under any
other, with the labels of the one. -/
theorem Edited.compile_relabelled (h : g.Edited) (config config' : CompilerConfig) :
    g.compile config' = (g.compile config).map (forestRelabel (g.labelOf config')) := by
  cases hreport : g.validate.hasErrors with
  | true =>
    rw [compile, compile, hreport]
    rfl
  | false =>
    have hw := h.wellFormed
    have hs := hw.sound (hasErrors_validate.1 hreport)
    rw [(hs.recast config config').compile_eq hw hw, funext (forestRelabel_eq_map _)]

theorem Edited.labelled_of_compile {forest : List Layer} (h : g.Edited)
    (hforest : g.compile config = .ok forest) : g.Labelled config forest := by
  have hsame := h.compile_relabelled config config
  rw [hforest, Except.map, Except.ok.injEq] at hsame
  rw [hsame]
  exact g.labelled_relabel config forest

/-- For every edited graph and any two configurations: the graph is refused under both for the same
reason, or it is compiled under both, to forests that are the same once all groups are given one
reduction.  In each of them a group has the reduction that its merging node declares, and every
other group has the default of the configuration. -/
theorem Edited.default_only_labels (h : g.Edited) (config config' : CompilerConfig) :
    (∀ e, g.compile config = .error e ↔ g.compile config' = .error e) ∧
      ∀ forest, g.compile config = .ok forest → ∃ forest', g.compile config' = .ok forest' ∧
        (∀ r, forestRelabel (fun _ => r) forest = forestRelabel (fun _ => r) forest') ∧
        g.Labelled config forest ∧ g.Labelled config' forest' := by
  have hsame := h.compile_relabelled config config'
  constructor
  · intro e
    rw [hsame]
    cases g.compile config with
    | error e' => simp [Except.map]
    | ok forest => simp [Except.map]
  · intro forest hforest
    rw [hforest] at hsame
    refine ⟨_, hsame, ?_, h.labelled_of_compile hforest, h.labelled_of_compile hsame⟩
    intro r
    rw [forestRelabel_forestRelabel]

/-- A stack feeds a sum directly and over another layer, and the sum feeds two layers, which stay
apart. Within the stack, a layer feeds a merging node that declares no reduction, directly and over
another layer. -/
def mixed : Graph :=
  (createAll {} ["LayerStacked", "LayerDense", "LayerParallel", "LayerDense", "LayerParallelSum",
      "LayerDense", "LayerDense", "LayerDense"]).connectAll
    [(.aux 0 0, .input 1), (.output 1, .input 2), (.output 1, .input 3), (.output 3, .input 2),
      (.output 2, .aux 0 1), (.output 0, .input 4), (.output 0, .input 5), (.output 5, .input 4),
      (.output 4, .input 6), (.output 4, .input 7)]

theorem edited_mixed : mixed.Edited := ((Built.new.createAll _).connectAll _).edited

/-- What `mixed` compiles to: one group has the reduction of the sum, and two have the default. -/
def mixedForest (reduction : Reduction) : List Layer :=
  [.node ⟨0, "LayerStacked", [], []⟩
    [.node ⟨1, "LayerDense", [], []⟩ [] []
      [.parallel reduction (some 2) [.sequence [], .node ⟨3, "LayerDense", [], []⟩ [] [] []]]]
    [⟨0, .entry, 1⟩, ⟨1, .exit, 2⟩]
    [.parallel .sum (some 4) [.sequence [], .node ⟨5, "LayerDense", [], []⟩ [] [] []],
      .parallel reduction none [.node ⟨6, "LayerDense", [], []⟩ [] [] [],
        .node ⟨7, "LayerDense", [], []⟩ [] [] []]]]

theorem compile_mixed (reduction : Reduction) :
    mixed.compile ⟨reduction⟩ = .ok (mixedForest reduction) := by rfl

theorem labelled_mixed :
    mixed.Labelled ⟨.concat⟩ (mixedForest .concat) ∧ mixed.Labelled ⟨.named "gated"⟩
      (mixedForest (.named "gated")) := by
  obtain ⟨-, hboth⟩ := edited_mixed.default_only_labels ⟨.concat⟩ ⟨.named "gated"⟩
  obtain ⟨forest', hforest', -, hlabelled, hlabelled'⟩ := hboth _ (compile_mixed .concat)
  rw [compile_mixed, Except.ok.injEq] at hforest'
  exact ⟨hlabelled, hforest' ▸ hlabelled'⟩

end Graph

end LayerNet
