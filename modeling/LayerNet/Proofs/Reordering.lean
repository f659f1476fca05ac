import LayerNet.Proofs.Division
import LayerNet.Proofs.Redrawing
import LayerNet.Proofs.Resemblance

/-!
# Compiling a redrawn network

The order of edges decides in which order the compiler finds the points where branches meet, expands
the branches and puts new heads into its list, and all of this shares one record of placed nodes.
None of it decides whether a network has a tree form, or which one up to the order of parallel parts:
`Edited.compile_redrawn`.

`Expander.Mirrors` relates a level of expansion for one drawing of a network to one for another
drawing.  Every construction of the compiler keeps the relation: heads that match are grouped into
heads that match (`Mirrors.round`, `Mirrors.rounds`), chains of layers become similar lists of layers
(`Mirrors.mergeHeads`), and a node or a group is followed by similar layers (`Mirrors.deeper`).
-/

namespace LayerNet

open Expansion Expander Layer

variable {g g' : Graph} {config : CompilerConfig} {below below' : Expander} {stop : Option NodeId}
  {pending pending' : List Head} {ids ids' : List NodeId}

/-! ## Where heads meet -/

namespace Graph

/-- The meeting points do not depend on the drawing. -/
theorem Redrawn.meetingPoints_perm (h : g.Redrawn g') (stop : Option NodeId)
    (hids : ids.Perm ids') :
    (g.meetingPoints stop ids).Perm (g'.meetingPoints stop ids') := by
  refine (List.perm_ext_iff_of_nodup (g.nodup_firstMeetings ids stop)
    (g'.nodup_firstMeetings ids' stop)).2 fun p => ?_
  have hlength : ∀ q, (ids'.filter fun id => q ∈ g.reachableFrom id stop).length =
      (ids.filter fun id => q ∈ g.reachableFrom id stop).length := fun q =>
    (hids.symm.filter _).length_eq
  show p ∈ g.meetingPoints stop ids ↔ p ∈ g'.meetingPoints stop ids'
  simp only [mem_meetingPoints_iff, h.mem_reachableFrom_iff, hlength, hids.mem_iff]

theorem Redrawn.divided (h : g.Redrawn g') (hids : ids.Perm ids')
    (hdivided : g.Divided stop ids) : g'.Divided stop ids' := by
  have hsymm : ∀ {p q : NodeId},
      (∀ id ∈ ids, p ∈ g.reachableFrom id stop → q ∉ g.reachableFrom id stop) →
        ∀ id ∈ ids, q ∈ g.reachableFrom id stop → p ∉ g.reachableFrom id stop :=
    fun h id hid hq hp => h id hid hp hq
  have hpoints := ((h.meetingPoints_perm stop hids).pairwise_iff hsymm).1 hdivided
  simpa only [Divided, h.mem_reachableFrom_iff, hids.mem_iff] using hpoints

theorem Redrawn.arriving (h : g.Redrawn g') (stop : Option NodeId)
    (hp : Matched Head.Similar pending pending') (p : NodeId) :
    Matched Head.Similar (g.arriving stop pending p) (g'.arriving stop pending' p) := by
  refine hp.filter fun k k' hk => ?_
  rw [decide_eq_true_iff, decide_eq_true_iff, hk.node_eq, h.mem_reachableFrom_iff]

end Graph

theorem Matched.nodes_perm (h : Matched Head.Similar pending pending') :
    (pending.map Head.node).Perm (pending'.map Head.node) :=
  matched_eq_iff.1 (h.map fun _ _ hk => hk.node_eq)

theorem Graph.Redrawn.apartFrom (h : g.Redrawn g') (hp : Matched Head.Similar pending pending') :
    Matched Head.Similar (g.apartFrom stop pending) (g'.apartFrom stop pending') := by
  refine hp.filter fun k k' hk => ?_
  rw [decide_eq_true_iff, decide_eq_true_iff, hk.node_eq]
  simp only [h.mem_reachableFrom_iff, (h.meetingPoints_perm stop hp.nodes_perm).mem_iff]

/-! ## Two levels of expansion -/

namespace Expander

theorem Placing.meetAt (h : below.Placing) (g : Graph) (config : CompilerConfig)
    (stop : Option NodeId) (pending : List Head) (point : NodeId) :
    (below.meetAt g config stop pending point).Placing := by
  refine (Expansion.Placing.mapM (fun k => (Program.chain k _).placing h) _).bind fun chains => ?_
  exact (placing_parallelGroup ..).bind fun group => .pure _

/-- A level of expansion for each of two drawings of a network.  The second one succeeds whenever the
first one does, with similar layers. -/
structure Mirrors (g g' : Graph) (below below' : Expander) : Prop where
  redrawn : g.Redrawn g'
  wellFormed : g.WellFormed
  wellFormed' : g'.WellFormed
  placing : below.Placing
  placing' : below'.Placing
  node : ∀ id stop,
    Carries (List.Forall₂ Layer.Similar) (below.node id stop) (below'.node id stop)
  afterGroup : ∀ id stop,
    Carries (List.Forall₂ Layer.Similar) (below.afterGroup id stop) (below'.afterGroup id stop)

namespace Mirrors

variable (h : Mirrors g g' below below') (config : CompilerConfig)

include h

theorem chain {k k' : Head} (hk : k.Similar k') (stop : Option NodeId) :
    Carries (List.Forall₂ Layer.Similar) (below.chain k stop) (below'.chain k' stop) := by
  cases hk with
  | bare node => exact h.node node stop
  | grouped node hgroup =>
    exact (h.afterGroup node stop).bind (fun rest rest' hrest => .pure (.cons hgroup hrest))
      (fun _ => .pure _) fun _ => .pure _

theorem parallelGroup (point : NodeId) {branches branches' : List Layer}
    (hbranches : Matched Layer.Similar branches branches') :
    Carries Layer.Similar (parallelGroup g config point branches)
      (parallelGroup g' config point branches') := by
  intro group s hrun
  obtain ⟨hlen, rfl, rfl⟩ := gives_parallelGroup_iff.1 hrun
  rw [hbranches.length_eq, ← h.redrawn.arrivals_eq h.wellFormed h.wellFormed'] at hlen
  refine ⟨_, [], gives_parallelGroup_iff.2 ⟨hlen, rfl, rfl⟩, ?_, .refl _⟩
  rw [h.redrawn.groupAt_eq]
  exact .of_branches hbranches

theorem meetAt (hp : Matched Head.Similar pending pending') (point : NodeId) :
    Carries Head.Similar (below.meetAt g config stop pending point)
      (below'.meetAt g' config stop pending' point) := by
  have hchains := Carries.mapM_matched (h.redrawn.arriving stop hp point)
    (fun k k' hk => h.chain hk (some point)) (fun k => (Program.chain k _).placing h.placing)
    fun k' => (Program.chain k' _).placing h.placing'
  refine hchains.bind (fun chains chains' hmatched => ?_)
    (fun _ => (placing_parallelGroup ..).bind fun _ => .pure _)
    fun _ => (placing_parallelGroup ..).bind fun _ => .pure _
  exact (h.parallelGroup config point (hmatched.map fun _ _ => similar_asBranch)).bind
    (fun group group' hgroup => .pure (.grouped point hgroup)) (fun _ => .pure _) fun _ => .pure _

theorem round (hp : Matched Head.Similar pending pending') :
    Carries (Matched Head.Similar) (below.round g config stop pending)
      (below'.round g' config stop pending') := by
  intro next s hrun
  obtain ⟨hdivided, groups, hgroups, hnext⟩ := gives_round hrun
  have hpoints := matched_eq_iff.2 (h.redrawn.meetingPoints_perm stop hp.nodes_perm)
  have hmeet : ∀ p p', p = p' → Carries Head.Similar (below.meetAt g config stop pending p)
      (below'.meetAt g' config stop pending' p') := by
    rintro p _ rfl
    exact h.meetAt config hp p
  have hmapM := Carries.mapM_matched hpoints hmeet
    (fun p => h.placing.meetAt g config stop pending p)
    fun p' => h.placing'.meetAt g' config stop pending' p'
  obtain ⟨groups', t, hgroups', hmatched, hst⟩ := hmapM groups s hgroups
  obtain ⟨next', hrun', hnext'⟩ := exists_round (h.redrawn.divided hp.nodes_perm hdivided) hgroups'
  exact ⟨next', t, hrun',
    ((hmatched.append (h.redrawn.apartFrom hp)).perm_left hnext).perm_right hnext'.symm, hst⟩

theorem rounds (stop : Option NodeId) (more : Nat) (hp : Matched Head.Similar pending pending') :
    Carries (Matched Head.Similar) (below.rounds g config stop more pending)
      (below'.rounds g' config stop more pending') := by
  induction more generalizing pending pending' with
  | zero => exact .pure hp
  | succ more ih =>
    have hpoints := h.redrawn.meetingPoints_perm stop hp.nodes_perm
    rw [rounds_succ, rounds_succ]
    by_cases hnil : g.meetingPoints stop (pending.map Head.node) = []
    · rw [if_pos hnil, if_pos (List.nil_perm.1 (hnil ▸ hpoints))]
      exact .pure hp
    · have hnil' : g'.meetingPoints stop (pending'.map Head.node) ≠ [] := fun e =>
        hnil (List.perm_nil.1 (e ▸ hpoints))
      rw [if_neg hnil, if_neg hnil']
      exact (h.round config hp).bind (fun next next' hnext => ih hnext)
        (fun next => (Program.rounds g config stop more next).placing h.placing)
        fun next' => (Program.rounds g' config stop more next').placing h.placing'

/-! ## Lists of heads -/

theorem converge (stop : Option NodeId) (hids : ids.Perm ids') :
    Carries (Matched (List.Forall₂ Layer.Similar)) (below.converge g config ids stop)
      (below'.converge g' config ids' stop) := by
  have hpending : Matched Head.Similar (ids.map fun node => ⟨node, none⟩)
      (ids'.map fun node => ⟨node, none⟩) :=
    (matched_eq_iff.2 hids).map fun node node' he => he ▸ .bare node
  unfold Expander.converge
  rw [← hids.length_eq]
  refine (h.rounds config stop ids.length hpending).bind (fun final final' hfinal => ?_)
    (fun _ => .mapM (fun k => (Program.chain k stop).placing h.placing) _)
    fun _ => .mapM (fun k => (Program.chain k stop).placing h.placing') _
  exact Carries.mapM_matched hfinal (fun k k' hk => h.chain hk stop)
    (fun k => (Program.chain k stop).placing h.placing)
    fun k => (Program.chain k stop).placing h.placing'

theorem mergeHeads (stop : Option NodeId) (hids : ids.Perm ids') :
    Carries (List.Forall₂ Layer.Similar) (below.mergeHeads g config ids stop)
      (below'.mergeHeads g' config ids' stop) := by
  intro layers s hrun
  obtain ⟨chains, hchains, hcases⟩ := gives_mergeHeads_iff.1 hrun
  obtain ⟨chains', t, hchains', hmatched, hst⟩ := h.converge config stop hids chains s hchains
  have hfull : Matched (List.Forall₂ Layer.Similar) (chains.filter fun chain => !chain.isEmpty)
      (chains'.filter fun chain => !chain.isEmpty) := by
    refine hmatched.filter fun chain chain' hchain => ?_
    cases hchain <;> simp
  have hlen := hfull.length_eq
  rcases hcases with ⟨hnil, rfl⟩ | hone | ⟨hmany, rfl, rfl⟩
  · have hnil' := List.eq_nil_of_length_eq_zero (hnil ▸ hlen).symm
    exact ⟨[], t, gives_mergeHeads_iff.2 ⟨chains', hchains', .inl ⟨hnil', rfl⟩⟩, .nil, hst⟩
  · rw [hone] at hfull
    obtain ⟨k, hk, hperm⟩ := hfull
    obtain ⟨layers', -, hsimilar, ⟨⟩, rfl⟩ := List.forall₂_cons_left_iff.1 hk
    have hone' := List.singleton_perm.1 hperm
    exact ⟨layers', t, gives_mergeHeads_iff.2 ⟨chains', hchains', .inr (.inl hone'.symm)⟩, hsimilar,
      hst⟩
  · refine ⟨_, t, gives_mergeHeads_iff.2 ⟨chains', hchains', .inr (.inr ⟨hlen ▸ hmany, rfl, rfl⟩)⟩,
      ?_, hst⟩
    exact .cons (.of_branches (hfull.map fun _ _ => similar_asBranch)) .nil

theorem heads (stop : Option NodeId) (hids : ids.Perm ids') :
    Carries (List.Forall₂ Layer.Similar) (below.heads g config ids stop)
      (below'.heads g' config ids' stop) := by
  match ids, hids with
  | [], hids =>
    obtain rfl := List.nil_perm.1 hids
    exact .pure .nil
  | [id], hids =>
    obtain rfl := List.singleton_perm.1 hids
    exact h.node id stop
  | id :: id' :: rest, hids =>
    intro layers s hrun
    have hmany : 1 < (id :: id' :: rest).length := by simp
    rw [gives_heads_iff hmany] at hrun
    obtain ⟨layers', t, hrun', hsimilar⟩ := h.mergeHeads config stop hids layers s hrun
    exact ⟨layers', t, (gives_heads_iff (hids.length_eq ▸ hmany)).2 hrun', hsimilar⟩

/-! ## From a node on -/

theorem successors (id : NodeId) (stop : Option NodeId) :
    Carries (List.Forall₂ Layer.Similar) (below.successors g config id stop)
      (below'.successors g' config id stop) := by
  intro layers s hrun
  obtain ⟨hends, hheads⟩ := gives_successors_iff.1 hrun
  have hperm := h.redrawn.successors_perm id
  have hnext := hperm.filter fun n => some n ≠ stop
  obtain ⟨layers', t, hrun', hsimilar⟩ := h.heads config stop hnext layers s hheads
  refine ⟨layers', t, gives_successors_iff.2 ⟨hends.imp_right fun hends => ?_, hrun'⟩, hsimilar⟩
  rcases hends with hnil | hall
  · exact .inl (List.nil_perm.1 (hnil ▸ hnext))
  · rw [List.filter_eq_self] at hall ⊢
    exact .inr fun n hn => hall n (hperm.mem_iff.2 hn)

theorem subgraph {id : NodeId} {n n' : Node} (hn : g.node? id = some n) (hn' : g'.node? id = some n')
    (hcontent : n'.content = n.content) :
    Carries (fun r r' => Matched Layer.Similar r.1 r'.1 ∧ r.2.Perm r'.2)
      (below.subgraph g config n) (below'.subgraph g' config n') := by
  rintro ⟨inner, links⟩ s hrun
  obtain ⟨rfl, hinner⟩ := gives_subgraph_iff.1 hrun
  have hlinks := (h.redrawn.auxLinks_perm h.wellFormed h.wellFormed' hn hn' hcontent).map Prod.snd
  have hheads := h.redrawn.auxHeads_perm h.wellFormed h.wellFormed' hn hn' hcontent
  rcases hinner with ⟨hmany, chains, hchains, rfl⟩ | ⟨hfew, hrun⟩
  · obtain ⟨chains', t, hchains', hmatched, hst⟩ := h.converge config none hheads chains s hchains
    exact ⟨_, t, gives_subgraph_iff.2 ⟨rfl, .inl ⟨hheads.length_eq ▸ hmany, chains', hchains', rfl⟩⟩,
      ⟨hmatched.flatten, hlinks⟩, hst⟩
  · obtain ⟨inner', t, hrun', hsimilar, hst⟩ := h.heads config none hheads inner s hrun
    exact ⟨_, t, gives_subgraph_iff.2 ⟨rfl, .inr ⟨hheads.length_eq ▸ hfew, hrun'⟩⟩,
      ⟨.of_forall₂ hsimilar, hlinks⟩, hst⟩

/-- What runs inside the layer of a node, if it is special. -/
theorem inside {id : NodeId} {n n' : Node} {inner : List Layer} {links : List AuxLink}
    {s t : List NodeId} (hn : g.node? id = some n) (hn' : g'.node? id = some n')
    (hcontent : n'.content = n.content)
    (hrun : if n.isSpecial then (below.subgraph g config n).Gives s (inner, links) t
      else inner = [] ∧ links = [] ∧ t = s) :
    ∃ inner' links' t',
      (if n'.isSpecial then (below'.subgraph g' config n').Gives s (inner', links') t'
        else inner' = [] ∧ links' = [] ∧ t' = s) ∧
      Matched Layer.Similar inner inner' ∧ links.Perm links' ∧ t.Perm t' := by
  have hspecial : n'.isSpecial = n.isSpecial := by
    rw [Node.isSpecial, Node.isSpecial, (Node.fields_of_content_eq hcontent).1]
  rw [hspecial]
  cases hcase : n.isSpecial with
  | true =>
    rw [hcase, if_pos rfl] at hrun
    obtain ⟨⟨inner', links'⟩, t', hrun', ⟨hinner, hlinks⟩, htt'⟩ :=
      (h.subgraph config hn hn' hcontent).gives ((Program.subgraph g config n).placing h.placing)
        ((Program.subgraph g' config n').placing h.placing') (.refl s) hrun
    exact ⟨inner', links', t', hrun', hinner, hlinks, htt'⟩
  | false =>
    rw [hcase, if_neg Bool.false_ne_true] at hrun
    obtain ⟨rfl, rfl, rfl⟩ := hrun
    exact ⟨[], [], t, ⟨rfl, rfl, rfl⟩, .of_forall₂ .nil, .refl [], .refl t⟩

theorem expandNode (id : NodeId) (stop : Option NodeId) :
    Carries (List.Forall₂ Layer.Similar) (below.expandNode g config id stop)
      (below'.expandNode g' config id stop) := by
  by_cases hstop : some id = stop
  · rw [Expander.expandNode, Expander.expandNode, if_pos hstop, if_pos hstop]
    exact .pure .nil
  cases hn : g.node? id with
  | none =>
    rw [Expander.expandNode, Expander.expandNode, if_neg hstop, if_neg hstop, hn,
      h.redrawn.node?_eq_none hn]
    exact .pure .nil
  | some n =>
    intro layers u hrun
    obtain ⟨n', hn', hcontent⟩ := h.redrawn.exists_node? hn
    obtain ⟨hnew, hone, inner, links, t, children, hinside, hchildren, rfl⟩ :=
      (gives_expandNode_iff hstop hn).1 hrun
    obtain ⟨inner', links', t', hinside', hinner, hlinks, htt'⟩ :=
      h.inside config hn hn' hcontent hinside
    obtain ⟨children', u', hchildren', hsimilar, huu'⟩ :=
      (h.successors config id stop).gives ((Program.successors g config id stop).placing h.placing)
        ((Program.successors g' config id stop).placing h.placing') htt' hchildren
    have hsource : (⟨n'.id, n'.layerType, n'.floatParams, n'.stringParams⟩ : LayerNode) =
        ⟨n.id, n.layerType, n.floatParams, n.stringParams⟩ := congrArg Prod.snd hcontent
    rw [← h.redrawn.length_predecessors_eq h.wellFormed h.wellFormed'] at hone
    refine ⟨_, u', (gives_expandNode_iff hstop hn').2 ⟨hnew, hone, inner', links', t', children',
      hinside', hchildren', rfl⟩, ?_, huu'⟩
    rw [hsource]
    exact .cons (.of_inner hinner hlinks hsimilar) .nil

theorem expandAfterGroup (merge : NodeId) (stop : Option NodeId) :
    Carries (List.Forall₂ Layer.Similar) (below.expandAfterGroup g config merge stop)
      (below'.expandAfterGroup g' config merge stop) := by
  rw [Expander.expandAfterGroup, Expander.expandAfterGroup]
  split
  · exact .pure .nil
  cases hn : g.node? merge with
  | none =>
    rw [h.redrawn.node?_eq_none hn]
    exact .pure .nil
  | some n =>
    obtain ⟨n', hn', hcontent⟩ := h.redrawn.exists_node? hn
    simp only [hn', h.redrawn.isMerge_eq hcontent]
    split
    · exact (Carries.refl _).bind (fun _ _ _ => h.successors config merge stop)
        (fun _ => (Program.successors g config merge stop).placing h.placing)
        fun _ => (Program.successors g' config merge stop).placing h.placing'
    · exact h.expandNode config merge stop

/-- One more level of expansion. -/
theorem deeper : Mirrors g g' (below.deeper g config) (below'.deeper g' config) where
  redrawn := h.redrawn
  wellFormed := h.wellFormed
  wellFormed' := h.wellFormed'
  placing := h.placing.deeper g config
  placing' := h.placing'.deeper g' config
  node := h.expandNode config
  afterGroup := h.expandAfterGroup config

end Mirrors

theorem mirrors_exhausted (h : g.Redrawn g') (hg : g.WellFormed) (hg' : g'.WellFormed) :
    Mirrors g g' (exhausted g) (exhausted g') where
  redrawn := h
  wellFormed := hg
  wellFormed' := hg'
  placing := placing_exhausted g
  placing' := placing_exhausted g'
  node id stop := by
    have hnone : (g'.node? id).isNone = (g.node? id).isNone := by
      have hids := congrArg (id ∈ ·) h.ids_eq
      simp only [Graph.mem_ids, eq_iff_iff] at hids
      rw [← Option.not_isSome, ← Option.not_isSome, Bool.eq_iff_iff.2 hids]
    unfold exhausted
    dsimp only
    rw [hnone]
    split
    · exact .pure .nil
    · exact .refuse _ _
  afterGroup merge stop := by
    unfold exhausted
    dsimp only
    split
    · exact .pure .nil
    cases hn : g.node? merge with
    | none =>
      rw [h.node?_eq_none hn]
      exact .pure .nil
    | some n => exact .refuse _ _

/-- All levels of expansion of two drawings of a network. -/
theorem mirrors_levels (h : g.Redrawn g') (hg : g.WellFormed) (hg' : g'.WellFormed)
    (config : CompilerConfig) (n : Nat) : Mirrors g g' (levels g config n) (levels g' config n) := by
  induction n with
  | zero => exact mirrors_exhausted h hg hg'
  | succ n ih => exact ih.deeper config

end Expander

/-! ## The whole network -/

namespace Graph

/-- If a network compiles, so does every other drawing of it, to a similar forest. -/
theorem Redrawn.compile_ok (h : g.Redrawn g') (hg : g.WellFormed) (hg' : g'.WellFormed)
    {forest : List Layer} (hforest : g.compile config = .ok forest) :
    ∃ forest', g'.compile config = .ok forest' ∧ List.Forall₂ Layer.Similar forest forest' := by
  obtain ⟨hreport, hinputs, t, hrun⟩ := compile_eq_ok_iff.1 hforest
  have hperm := h.realInputs_perm hg hg'
  have hmirrors := mirrors_levels h hg hg' config g.size
  obtain ⟨forest', t', hrun', hsimilar, -⟩ := hmirrors.heads config none hperm forest t hrun
  rw [← h.size_eq] at hrun'
  refine ⟨forest', compile_eq_ok_iff.2 ⟨h.hasErrors_eq_false hg hg' hreport, ?_, t', hrun'⟩,
    hsimilar⟩
  intro hnil
  exact hinputs (List.perm_nil.1 (hnil ▸ hperm))

/-- Two edited graphs with the same layer types, nodes and edges compile both, to forests that are
similar layer by layer, or neither of them does. -/
theorem Edited.compile_redrawn (hg : g.Edited) (hg' : g'.Edited) (h : g.Redrawn g')
    (config : CompilerConfig) :
    (∃ forest forest', g.compile config = .ok forest ∧ g'.compile config = .ok forest' ∧
        List.Forall₂ Layer.Similar forest forest') ∨
      (∃ e e', g.compile config = .error e ∧ g'.compile config = .error e') := by
  have hw := hg.wellFormed
  have hw' := hg'.wellFormed
  cases hforest : g.compile config with
  | ok forest =>
    obtain ⟨forest', hforest', hsimilar⟩ := h.compile_ok hw hw' hforest
    exact .inl ⟨forest, forest', rfl, hforest', hsimilar⟩
  | error e =>
    cases hforest' : g'.compile config with
    | ok forest' =>
      obtain ⟨forest, hok, -⟩ := h.symm.compile_ok hw' hw hforest'
      rw [hforest] at hok
      cases hok
    | error e' => exact .inr ⟨e, e', rfl, rfl⟩

/-- A fork that is merged again, behind a special node with two nodes inside. -/
def tangled : Graph :=
  (createAll {} ["LayerDense", "LayerStacked", "LayerDense", "LayerDense", "LayerDense",
    "LayerDense", "LayerParallelSum"]).connectAll
    [(.output 0, .input 1), (.aux 1 0, .input 2), (.aux 1 0, .input 3), (.output 2, .aux 1 1),
      (.output 3, .aux 1 1), (.output 1, .input 4), (.output 1, .input 5), (.output 4, .input 6),
      (.output 5, .input 6)]

/-- The same network: the first branch of the fork, the first wire into the subgraph and the first
one out of it are drawn again, and come last. -/
def retangled : Graph :=
  ((tangled.rejoin (.output 1) (.input 4)).rejoin (.aux 1 0) (.input 2)).rejoin (.output 2)
    (.aux 1 1)

theorem edited_tangled : tangled.Edited := ((Built.new.createAll _).connectAll _).edited

theorem edited_retangled : retangled.Edited :=
  ((edited_tangled.rejoin _ _).rejoin _ _).rejoin _ _

theorem redrawn_tangled : tangled.Redrawn retangled := by
  have hfork : tangled.Redrawn (tangled.rejoin (.output 1) (.input 4)) :=
    edited_tangled.redrawn_rejoin (by decide +kernel)
  have hwire := ((edited_tangled.rejoin (.output 1) (.input 4)).redrawn_rejoin
    (show .input 2 ∈ (tangled.rejoin (.output 1) (.input 4)).peers (.aux 1 0) by decide +kernel))
  exact (hfork.trans hwire).trans
    (((edited_tangled.rejoin _ _).rejoin _ _).redrawn_rejoin (by decide +kernel))

/-- The two drawings compile to forests that are not the same but similar. -/
theorem compile_redrawn_tangled : ∃ forest forest', tangled.compile {} = .ok forest ∧
    retangled.compile {} = .ok forest' ∧ forest ≠ forest' ∧
      List.Forall₂ Layer.Similar forest forest' := by
  have htext : ((tangled.compile {}).toOption.map (forestTextAt 0)).isSome ∧
      (tangled.compile {}).toOption.map (forestTextAt 0) ≠
        (retangled.compile {}).toOption.map (forestTextAt 0) := by
    decide +kernel
  obtain ⟨forest, forest', hforest, hforest', hsimilar⟩ | ⟨e, e', herror, -⟩ :=
    edited_tangled.compile_redrawn edited_retangled redrawn_tangled {}
  · refine ⟨forest, forest', hforest, hforest', fun e => htext.2 ?_, hsimilar⟩
    rw [hforest, hforest', e]
  · rw [herror] at htext
    cases htext.1

end Graph

end LayerNet
