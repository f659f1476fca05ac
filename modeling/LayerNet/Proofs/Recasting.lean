import LayerNet.Proofs.Likeness
import LayerNet.Proofs.Rounds

/-!
# Compilations that run side by side

Two compilations go the same way if their graphs are alike and the edges stand in the same order at
all outputs: the same nodes become heads, the same heads meet, and the same obstacles are
found.  What they put together on the way may differ.  `Graph.Recast` says that it differs by a
change `φ` of trees, wherever the compiler makes a layer, and `Recast.compile_eq` that then so do
the results.

The proof follows the compiler.  `Expander.Recasts` relates two levels of expansion whose answers
differ by `φ`, and each construction of the compiler keeps this relation.
-/

namespace LayerNet

open Expansion

/-! ## Expansions with other results -/

theorem map_refuse {α β : Type} (f : α → β) (node : NodeId) (obstacle : Obstacle) :
    f <$> (refuse node obstacle : Expansion α) = refuse node obstacle := rfl

/-- A change of all results of a list of steps. -/
theorem mapM_map_result {m : Type → Type} [Monad m] [LawfulMonad m] {α β γ : Type} (f : β → γ)
    (step : α → m β) (l : List α) :
    (l.mapM fun a => f <$> step a) = List.map f <$> l.mapM step := by
  induction l with
  | nil => simp
  | cons a l ih => simp [ih]

/-- What comes after an expansion matters only for the values that it can give. -/
theorem bind_congr_of_gives {α β : Type} {x : Expansion α} {f f' : α → Expansion β}
    (h : ∀ s a t, x.Gives s a t → f a = f' a) : x >>= f = x >>= f' := by
  funext s
  simp only [bind, StateT.bind, Except.bind]
  cases hrun : x s with
  | error e => rfl
  | ok r => exact congrFun (h s r.1 r.2 hrun) r.2

variable {φ : Layer → Layer}

/-- A head whose group is changed by `φ`. -/
def Head.recast (φ : Layer → Layer) (head : Head) : Head := ⟨head.node, head.group.map φ⟩

theorem map_node_recast (pending : List Head) :
    (pending.map (Head.recast φ)).map Head.node = pending.map Head.node := by
  rw [List.map_map]
  rfl

/-- Two levels of expansion with the same answers up to a change `φ` of all trees. -/
structure Expander.Recasts (φ : Layer → Layer) (x x' : Expander) : Prop where
  node : ∀ id stop, x'.node id stop = List.map φ <$> x.node id stop
  afterGroup : ∀ id stop, x'.afterGroup id stop = List.map φ <$> x.afterGroup id stop

/-- Two graphs with the same nodes and edges and the same order of edges at all outputs.  The
layers that the compiler makes for `g'` under `config'` are those that it makes for `g` under
`config`, changed by `φ`; of a group this is asked only if several branches arrive, as they do
where heads meet. -/
structure Graph.Recast (φ : Layer → Layer) (g g' : Graph) (config config' : CompilerConfig) :
    Prop where
  alike : g.Alike g'
  peers_output : ∀ id, g'.peers (.output id) = g.peers (.output id)
  heads : ∀ id n n', g.node? id = some n → g'.node? id = some n' →
    Expander.auxHeads n' = Expander.auxHeads n
  special : ∀ id n n', g.node? id = some n → g'.node? id = some n' → ∀ source inner children,
    φ (.node source inner ((Expander.auxLinks n).map Prod.snd) children) =
      .node source (inner.map φ) ((Expander.auxLinks n').map Prod.snd) (children.map φ)
  plain : ∀ source children, φ (.node source [] [] children) = .node source [] [] (children.map φ)
  sequence : ∀ steps, φ (.sequence steps) = .sequence (steps.map φ)
  group : ∀ point branches, 2 ≤ g.arrivals point →
    φ (g.groupAt config point branches) = g'.groupAt config' point (branches.map φ)
  apart : ∀ branches, φ (.parallel config.defaultReduction none branches) =
    .parallel config'.defaultReduction none (branches.map φ)

namespace Graph

variable {g g' : Graph} {config config' : CompilerConfig} {id : NodeId}

/-! ## What a compiler asks of a graph -/

theorem Alike.refl (g : Graph) : g.Alike g := ⟨rfl, fun _ => rfl, fun _ => .refl _⟩

theorem Alike.length_predecessors_eq (h : g.Alike g') (id : NodeId) :
    (g'.predecessors id).length = (g.predecessors id).length :=
  length_predecessors_congr (h.peers _)

theorem Alike.size_eq (h : g.Alike g') : g'.size = g.size := by
  rw [← length_ids, h.ids_eq, length_ids]

theorem Alike.arrivals_eq (h : g.Alike g') (point : NodeId) :
    g'.arrivals point = g.arrivals point :=
  arrivals_congr (h.peers _)

theorem Recast.successors_eq (h : g.Recast φ g' config config') (id : NodeId) :
    g'.successors id = g.successors id := by
  rw [successors, successors, h.peers_output]

theorem Recast.flow_eq (h : g.Recast φ g' config config') : g'.flow = g.flow := by
  have hnext : g'.successors = g.successors := funext h.successors_eq
  simp only [flow, hnext, h.alike.ids_eq]

theorem Recast.firstMeetings_eq (h : g.Recast φ g' config config') (heads : List NodeId)
    (stop : Option NodeId) : g'.firstMeetings heads stop = g.firstMeetings heads stop := by
  have hreach : g'.reachableFrom = g.reachableFrom := by
    funext start stop
    rw [reachableFrom, reachableFrom, h.flow_eq]
  rw [firstMeetings, firstMeetings, hreach]

theorem Recast.parallelGroup_eq (h : g.Recast φ g' config config') (point : NodeId)
    {branches : List Layer} (hseveral : 2 ≤ branches.length) :
    parallelGroup g' config' point (branches.map φ) =
      φ <$> parallelGroup g config point branches := by
  rw [LayerNet.parallelGroup_eq, LayerNet.parallelGroup_eq, List.length_map, h.alike.arrivals_eq]
  split
  · rw [map_refuse]
  · rename_i hlen
    rw [not_not] at hlen
    rw [map_pure, h.group point branches (hlen ▸ hseveral)]

theorem Recast.asBranch_eq (h : g.Recast φ g' config config') (steps : List Layer) :
    asBranch (steps.map φ) = φ (asBranch steps) := by
  match steps with
  | [] => exact (h.sequence []).symm
  | [step] => rfl
  | step :: next :: rest => exact (h.sequence (step :: next :: rest)).symm

end Graph

namespace Expander

open LayerNet.Graph

variable {g g' : Graph} {config config' : CompilerConfig} {x x' : Expander}

/-! ## Grouping heads -/

theorem Recasts.chain (hx : x.Recasts φ x') (head : Head) (stop : Option NodeId) :
    x'.chain (head.recast φ) stop = List.map φ <$> x.chain head stop := by
  obtain ⟨node, group⟩ := head
  cases group with
  | none => exact hx.node node stop
  | some group =>
    simp only [Expander.chain, Head.recast, Option.map_some, hx.afterGroup, bind_map_left,
      map_bind, map_pure, List.map_cons]

theorem Recasts.branchesTo (hx : x.Recasts φ x') (h : g.Recast φ g' config config')
    (pending : List Head) (point : NodeId) (places : List Nat) :
    x'.branchesTo (pending.map (Head.recast φ)) point places =
      List.map φ <$> x.branchesTo pending point places := by
  induction places with
  | nil => rfl
  | cons i rest ih =>
    rw [Expander.branchesTo, Expander.branchesTo, List.getElem?_map]
    cases pending[i]? with
    | none => exact ih
    | some head =>
      simp only [Option.map_some, hx.chain, ih, bind_map_left, map_bind, map_pure, h.asBranch_eq,
        List.map_cons]

/-- The groups of a round, with all trees changed by `φ`. -/
def recastGroups (φ : Layer → Layer) (groups : List (Nat × Head)) : List (Nat × Head) :=
  groups.map fun group => (group.1, group.2.recast φ)

/-- The branches of a group are as many as the heads that meet, and these are several. -/
theorem Recasts.groupsAt (hx : x.Recasts φ x') (h : g.Recast φ g' config config')
    {pending : List Head} {meetings : List MeetingPoint} (taken : List Nat)
    (hmeet : ∀ c ∈ meetings, 2 ≤ (members pending c.heads).length) :
    x'.groupsAt g' config' (pending.map (Head.recast φ)) meetings taken =
      (fun r => (recastGroups φ r.1, r.2)) <$> x.groupsAt g config pending meetings taken := by
  induction meetings generalizing taken with
  | nil => rfl
  | cons meeting rest ih =>
    rw [List.forall_mem_cons] at hmeet
    rw [Expander.groupsAt, Expander.groupsAt]
    cases meeting.heads.find? fun i => i ∈ taken with
    | some i =>
      have hlabel : ((pending.map (Head.recast φ))[i]?.map fun head => g'.label head.node) =
          pending[i]?.map fun head => g.label head.node := by
        rw [List.getElem?_map, Option.map_map]
        refine congrArg (Option.map · _) (funext fun head => ?_)
        exact h.alike.label_eq head.node
      simp only [hlabel, map_refuse]
    | none =>
      simp only [hx.branchesTo h, ih _ hmeet.2, bind_map_left, map_bind]
      refine bind_congr_of_gives fun s branches t hbranches => ?_
      obtain ⟨chains, hchains, rfl⟩ := gives_branchesTo_iff.1 hbranches
      have hseveral : 2 ≤ (chains.map asBranch).length := by
        rw [List.length_map, length_of_gives_mapM hchains]
        exact hmeet.1
      simp only [h.parallelGroup_eq _ hseveral, bind_map_left, map_pure, recastGroups,
        List.map_cons, Head.recast, Option.map_some]

theorem regroup_recast (pending : List Head) (groups : List (Nat × Head)) (taken : List Nat) :
    regroup (pending.map (Head.recast φ)) (recastGroups φ groups) taken =
      (regroup pending groups taken).map (Head.recast φ) := by
  rw [regroup, regroup, List.zipIdx_map, List.flatMap_map, List.map_flatMap]
  refine List.flatMap_congr fun hi _ => ?_
  obtain ⟨head, i⟩ := hi
  simp only [Prod.map, id, List.map_append, recastGroups, List.filter_map, List.map_map,
    Function.comp_def]
  split
  · rfl
  · rfl

theorem Recasts.rounds (hx : x.Recasts φ x') (h : g.Recast φ g' config config')
    (stop : Option NodeId) (more : Nat) (pending : List Head) :
    x'.rounds g' config' stop more (pending.map (Head.recast φ)) =
      List.map (Head.recast φ) <$> x.rounds g config stop more pending := by
  induction more generalizing pending with
  | zero => rfl
  | succ more ih =>
    have hmeet : ∀ c ∈ g.firstMeetings (pending.map Head.node) stop,
        2 ≤ (members pending c.heads).length := by
      intro c hc
      rw [(meets_of_mem hc).length_members]
      exact (meets_of_mem hc).several
    rw [Expander.rounds, Expander.rounds, map_node_recast, h.firstMeetings_eq]
    cases hmeetings : g.firstMeetings (pending.map Head.node) stop with
    | nil => rfl
    | cons meeting rest =>
      rw [hmeetings] at hmeet
      simp only [hx.groupsAt h [] hmeet, bind_map_left, map_bind, regroup_recast, ih]

theorem Recasts.converge (hx : x.Recasts φ x') (h : g.Recast φ g' config config')
    (heads : List NodeId) (stop : Option NodeId) :
    x'.converge g' config' heads stop =
      List.map (List.map φ) <$> x.converge g config heads stop := by
  have hstart : (heads.map fun node => (⟨node, none⟩ : Head)) =
      (heads.map fun node => (⟨node, none⟩ : Head)).map (Head.recast φ) := by
    rw [List.map_map]
    rfl
  have hchains : ∀ pending : List Head,
      ((pending.map (Head.recast φ)).mapM fun head => x'.chain head stop) =
        List.map (List.map φ) <$> pending.mapM fun head => x.chain head stop := by
    intro pending
    rw [List.mapM_map, ← mapM_map_result]
    exact congrArg (List.mapM · pending) (funext fun head => hx.chain head stop)
  rw [Expander.converge, hstart, hx.rounds h, Expander.converge]
  simp only [bind_map_left, map_bind, hchains]

theorem Recasts.mergeHeads (hx : x.Recasts φ x') (h : g.Recast φ g' config config')
    (heads : List NodeId) (stop : Option NodeId) :
    x'.mergeHeads g' config' heads stop = List.map φ <$> x.mergeHeads g config heads stop := by
  have hfilter : ∀ chains : List (List Layer),
      ((chains.map (List.map φ)).filter fun chain => !chain.isEmpty) =
        (chains.filter fun chain => !chain.isEmpty).map (List.map φ) := by
    intro chains
    simp only [List.filter_map, Function.comp_def, List.isEmpty_map]
  rw [Expander.mergeHeads, Expander.mergeHeads, hx.converge h]
  simp only [bind_map_left, map_bind, hfilter]
  refine congrArg _ (funext fun chains => ?_)
  generalize (chains.filter fun chain => !chain.isEmpty) = kept
  match kept with
  | [] => rfl
  | [chain] => rfl
  | first :: second :: rest =>
    cases stop with
    | some merge => rfl
    | none =>
      have hbranches : ((first :: second :: rest).map (List.map φ)).map asBranch =
          ((first :: second :: rest).map asBranch).map φ := by
        rw [List.map_map, List.map_map]
        exact List.map_congr_left fun chain _ => h.asBranch_eq chain
      refine (congrArg (fun bs => pure [Layer.parallel config'.defaultReduction none bs])
        hbranches).trans ?_
      rw [← h.apart]
      rfl

theorem Recasts.heads (hx : x.Recasts φ x') (h : g.Recast φ g' config config')
    (heads : List NodeId) (stop : Option NodeId) :
    x'.heads g' config' heads stop = List.map φ <$> x.heads g config heads stop := by
  match heads with
  | [] => rfl
  | [head] => exact hx.node head stop
  | first :: second :: rest => exact hx.mergeHeads h (first :: second :: rest) stop

/-! ## From a node on -/

theorem Recasts.successors (hx : x.Recasts φ x') (h : g.Recast φ g' config config')
    (id : NodeId) (stop : Option NodeId) :
    x'.successors g' config' id stop = List.map φ <$> x.successors g config id stop := by
  cases stop with
  | none =>
    simp only [Expander.successors, h.successors_eq]
    exact hx.heads h _ none
  | some merge =>
    simp only [Expander.successors, h.successors_eq, h.alike.label_eq, hx.heads h]
    split
    · rw [map_refuse]
    · rfl

/-- The subgraph of a special node differs by `φ`, and the wiring is that of the other graph. -/
theorem Recasts.subgraph (hx : x.Recasts φ x') (h : g.Recast φ g' config config')
    {n n' : Node} {id : NodeId} (hn : g.node? id = some n) (hn' : g'.node? id = some n') :
    x'.subgraph g' config' n' =
      (fun r => (r.1.map φ, (auxLinks n').map Prod.snd)) <$> x.subgraph g config n := by
  have hheads := h.heads id n n' hn hn'
  unfold auxHeads at hheads
  simp only [Expander.subgraph, hheads, hx.converge h, hx.heads h]
  split
  · simp only [bind_map_left, map_bind, map_pure, pure_bind, List.map_flatten]
  · simp only [bind_map_left, map_bind, map_pure]

theorem Recasts.expandNode (hx : x.Recasts φ x') (h : g.Recast φ g' config config')
    (id : NodeId) (stop : Option NodeId) :
    x'.expandNode g' config' id stop = List.map φ <$> x.expandNode g config id stop := by
  rw [Expander.expandNode, Expander.expandNode]
  split
  · rfl
  · cases hn : g.node? id with
    | none =>
      rw [h.alike.node?_eq_none hn]
      rfl
    | some n =>
      obtain ⟨n', hn', hbare⟩ := h.alike.exists_node? hn
      obtain ⟨hid, htype, -, -, hstrings, hfloats, hkind⟩ := Node.fields_of_bare_eq hbare
      have hspecial : n'.isSpecial = n.isSpecial := by rw [Node.isSpecial, Node.isSpecial, hkind]
      simp only [hn', h.alike.length_predecessors_eq, hspecial, hid, htype, hstrings, hfloats,
        hx.successors h, hx.subgraph h hn hn', map_bind]
      refine congrArg _ (funext fun _ => ?_)
      split
      · rw [map_refuse]
      · split
        · -- the wiring that comes with the subgraph is that of the node
          rw [bind_map_left, map_bind]
          refine bind_congr_of_gives fun s r t hr => ?_
          have hlinks : r.2 = (auxLinks n).map Prod.snd := (gives_subgraph_iff.1 hr).1
          simp only [bind_map_left, map_bind, map_pure, List.map_cons, List.map_nil, hlinks,
            h.special id n n' hn hn']
        · simp only [pure_bind, bind_map_left, map_bind, map_pure, List.map_cons, List.map_nil,
            h.plain]

theorem Recasts.expandAfterGroup (hx : x.Recasts φ x') (h : g.Recast φ g' config config')
    (id : NodeId) (stop : Option NodeId) :
    x'.expandAfterGroup g' config' id stop =
      List.map φ <$> x.expandAfterGroup g config id stop := by
  rw [Expander.expandAfterGroup, Expander.expandAfterGroup]
  split
  · rfl
  · cases hn : g.node? id with
    | none =>
      rw [h.alike.node?_eq_none hn]
      rfl
    | some n =>
      obtain ⟨n', hn', hbare⟩ := h.alike.exists_node? hn
      obtain ⟨-, htype, -⟩ := Node.fields_of_bare_eq hbare
      simp only [hn', htype, h.alike.catalog, hx.successors h, hx.expandNode h]
      split
      · rw [map_bind]
      · rfl

theorem Recasts.deeper (hx : x.Recasts φ x') (h : g.Recast φ g' config config') :
    (x.deeper g config).Recasts φ (x'.deeper g' config') :=
  ⟨hx.expandNode h, hx.expandAfterGroup h⟩

theorem recasts_exhausted (h : g.Recast φ g' config config') :
    (exhausted g).Recasts φ (exhausted g') := by
  constructor
  · intro id stop
    have hnone : (g'.node? id).isNone = (g.node? id).isNone := by
      have hbare := congrArg Option.isNone (h.alike.nodes id)
      rwa [Option.isNone_map, Option.isNone_map] at hbare
    simp only [exhausted, hnone]
    split
    · rfl
    · rfl
  · intro id stop
    simp only [exhausted]
    split
    · rfl
    · cases hn : g.node? id with
      | none =>
        rw [h.alike.node?_eq_none hn]
        rfl
      | some n =>
        obtain ⟨n', hn', hbare⟩ := h.alike.exists_node? hn
        obtain ⟨-, htype, -⟩ := Node.fields_of_bare_eq hbare
        simp only [hn', h.alike.catalog, htype]
        rfl

theorem recasts_levels (h : g.Recast φ g' config config') (count : Nat) :
    (levels g config count).Recasts φ (levels g' config' count) := by
  induction count with
  | zero => exact recasts_exhausted h
  | succ count ih => exact ih.deeper h

end Expander

namespace Graph

variable {g g' : Graph} {config config' : CompilerConfig}

/-- The results of compilations that run side by side. -/
theorem Recast.compile_eq (h : g.Recast φ g' config config') (hg : g.WellFormed)
    (hg' : g'.WellFormed) : g'.compile config' = (g.compile config).map (List.map φ) := by
  have hheads : ∀ inputs, (g'.expander config').heads g' config' inputs none =
      List.map φ <$> (g.expander config).heads g config inputs none := by
    intro inputs
    rw [expander, expander, h.alike.size_eq]
    exact (Expander.recasts_levels h g.size).heads h inputs none
  rw [compile, compile, h.alike.validate_eq hg hg', h.alike.realInputs_eq hg hg']
  simp only [hheads]
  split
  · rfl
  · split
    · rfl
    · change _ = List.map φ <$> _
      rw [StateT.run'_eq, StateT.run'_eq, StateT.run_map, Functor.map_map, Functor.map_map]

end Graph

end LayerNet
