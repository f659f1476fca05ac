import LayerNet.Compile
import LayerNet.Proofs.Meetings

/-!
# Successful runs of an expansion

`x.Gives s a t` says that the expansion `x`, started when the ids `s` are placed, succeeds with `a`
and leaves the ids `t` placed.  For each step of the compiler there is one law that says when it
succeeds and with what; a proof about compilation cites these laws and opens no definition of the
compiler.

A round of grouping is described without places: `Expander.Grouped` relates the meetings of a round
to the groups that it forms, and `gives_groupsAt_iff` says that a round succeeds with these groups
if no head belongs to two meetings.
-/

namespace LayerNet

namespace Expansion

variable {α β : Type} {s t u : List NodeId} {a : α} {b : β}

/-- The expansion succeeds with a value, and leads from one list of placed ids to another. -/
def Gives (x : Expansion α) (s : List NodeId) (a : α) (t : List NodeId) : Prop := x s = .ok (a, t)

@[simp] theorem gives_pure_iff {a' : α} :
    (pure a : Expansion α).Gives s a' t ↔ a' = a ∧ t = s := by
  have hrun : (pure a : Expansion α) s = .ok (a, s) := rfl
  rw [Gives, hrun, Except.ok.injEq, Prod.mk.injEq]
  exact and_congr eq_comm eq_comm

@[simp] theorem gives_bind_iff {x : Expansion α} {f : α → Expansion β} :
    (x >>= f).Gives s b u ↔ ∃ a t, x.Gives s a t ∧ (f a).Gives t b u := by
  simp only [Gives, bind, StateT.bind, Except.bind]
  cases h : x s with
  | error e => simp
  | ok r =>
    constructor
    · exact fun hf => ⟨r.1, r.2, rfl, hf⟩
    · rintro ⟨a, t, e, hf⟩
      cases e
      exact hf

@[simp] theorem not_gives_refuse {node : NodeId} {obstacle : Obstacle} :
    ¬(refuse node obstacle : Expansion α).Gives s a t := by
  simp [Gives, refuse, throw, throwThe, MonadExceptOf.throw, StateT.lift, bind, Except.bind]

@[simp] theorem gives_place_iff {id : NodeId} {obstacle : Obstacle} {v : Unit} :
    (place id obstacle).Gives s v t ↔ id ∉ s ∧ t = id :: s := by
  rw [place, gives_bind_iff]
  constructor
  · rintro ⟨known, r, hget, h⟩
    cases hget
    split at h
    · exact absurd h not_gives_refuse
    · rename_i hid
      cases h
      exact ⟨hid, rfl⟩
  · rintro ⟨hid, rfl⟩
    refine ⟨s, s, rfl, ?_⟩
    rw [if_neg hid]
    rfl

theorem gives_mapM_nil_iff {f : α → Expansion β} {bs : List β} :
    (([] : List α).mapM f).Gives s bs t ↔ bs = [] ∧ t = s := by
  rw [List.mapM_nil, gives_pure_iff]

theorem gives_mapM_cons_iff {f : α → Expansion β} {l : List α} {bs : List β} :
    ((a :: l).mapM f).Gives s bs u ↔
      ∃ b t rest, (f a).Gives s b t ∧ (l.mapM f).Gives t rest u ∧ bs = b :: rest := by
  rw [List.mapM_cons]
  simp only [gives_bind_iff]
  constructor
  · rintro ⟨b, t, hb, rest, r, hrest, hpure⟩
    obtain ⟨rfl, rfl⟩ := gives_pure_iff.1 hpure
    exact ⟨b, t, rest, hb, hrest, rfl⟩
  · rintro ⟨b, t, rest, hb, hrest, rfl⟩
    exact ⟨b, t, hb, rest, u, hrest, gives_pure_iff.2 ⟨rfl, rfl⟩⟩

theorem length_of_gives_mapM {f : α → Expansion β} {l : List α} {bs : List β}
    (h : (l.mapM f).Gives s bs t) : bs.length = l.length := by
  induction l generalizing s bs with
  | nil => simp [(gives_mapM_nil_iff.1 h).1]
  | cons a l ih =>
    obtain ⟨b, r, rest, -, hrest, rfl⟩ := gives_mapM_cons_iff.1 h
    rw [List.length_cons, List.length_cons, ih hrest]

end Expansion

open Expansion

variable {g : Graph} {config : CompilerConfig} {below : Expander} {s t u : List NodeId}
  {stop : Option NodeId} {layers : List Layer} {pending : List Head} {id point : NodeId}

/-! ## Groups -/

/-- The number of branches that have to arrive at a point. -/
def Graph.arrivals (g : Graph) (point : NodeId) : Nat :=
  (g.predecessors point).length +
    if (g.peers (.input point)).any (fun p => p.slot.isAux) then 1 else 0

/-- The group of the branches that meet at a point. -/
def Graph.groupAt (g : Graph) (config : CompilerConfig) (point : NodeId) (branches : List Layer) :
    Layer :=
  .parallel
    (((g.node? point).bind fun n =>
      g.catalog.reductionFor n.layerType n.stringParams).getD config.defaultReduction)
    (if (g.node? point).any fun n => g.catalog.isMerge n.layerType then some point else none)
    branches

/-- What arrives at a point is told by the edges at its input, whatever their order. -/
theorem Graph.length_predecessors_congr {g' : Graph}
    (h : (g'.peers (.input point)).Perm (g.peers (.input point))) :
    (g'.predecessors point).length = (g.predecessors point).length := by
  have hperm : (g'.predecessors point).Perm (g.predecessors point) := by
    refine (List.perm_ext_iff_of_nodup (g'.nodup_predecessors point)
      (g.nodup_predecessors point)).2 fun x => ?_
    rw [predecessors, predecessors, mem_peerNodes, mem_peerNodes]
    exact h.mem_iff
  exact hperm.length_eq

theorem Graph.arrivals_congr {g' : Graph}
    (h : (g'.peers (.input point)).Perm (g.peers (.input point))) :
    g'.arrivals point = g.arrivals point := by
  rw [arrivals, arrivals, length_predecessors_congr h, h.any_eq]

/-- A group takes its reduction and its merge from the type and the parameters of a node. -/
theorem Graph.groupAt_congr {g' : Graph} (hcatalog : g'.catalog = g.catalog)
    (hnode : (g'.node? point).map (fun n => (n.layerType, n.stringParams)) =
      (g.node? point).map fun n => (n.layerType, n.stringParams))
    (config : CompilerConfig) (branches : List Layer) :
    g'.groupAt config point branches = g.groupAt config point branches := by
  rw [groupAt, groupAt, hcatalog]
  cases hn : g.node? point with
  | none =>
    rw [hn, Option.map_none, Option.map_eq_none_iff] at hnode
    rw [hnode]
  | some n =>
    rw [hn, Option.map_some, Option.map_eq_some_iff] at hnode
    obtain ⟨n', hn', hsame⟩ := hnode
    obtain ⟨htype, hparams⟩ := Prod.mk.inj hsame
    simp only [hn', Option.bind_some, Option.any_some, htype, hparams]

theorem parallelGroup_eq (g : Graph) (config : CompilerConfig) (point : NodeId)
    (branches : List Layer) :
    parallelGroup g config point branches =
      if branches.length ≠ g.arrivals point then
        refuse point (.partialGroup branches.length (g.arrivals point))
      else pure (g.groupAt config point branches) := rfl

theorem gives_parallelGroup_iff {branches : List Layer} {group : Layer} :
    (parallelGroup g config point branches).Gives s group t ↔
      branches.length = g.arrivals point ∧ group = g.groupAt config point branches ∧ t = s := by
  rw [parallelGroup_eq]
  split
  · rename_i hlen
    simp only [not_gives_refuse, false_iff, not_and]
    exact fun h => absurd h hlen
  · rename_i hlen
    rw [gives_pure_iff]
    exact ⟨fun h => ⟨not_not.1 hlen, h⟩, fun h => h.2⟩

namespace Expander

theorem gives_chain_iff_of_none {head : NodeId} :
    (below.chain ⟨head, none⟩ stop).Gives s layers t ↔ (below.node head stop).Gives s layers t :=
  Iff.rfl

theorem gives_chain_iff_of_some {head : NodeId} {group : Layer} :
    (below.chain ⟨head, some group⟩ stop).Gives s layers t ↔
      ∃ rest, (below.afterGroup head stop).Gives s rest t ∧ layers = group :: rest := by
  simp only [chain, gives_bind_iff, gives_pure_iff]
  constructor
  · rintro ⟨rest, r, h, rfl, rfl⟩
    exact ⟨rest, h, rfl⟩
  · rintro ⟨rest, h, rfl⟩
    exact ⟨rest, t, h, rfl, rfl⟩

/-- The branches of a group are the chains of its heads. -/
theorem gives_branchesTo_iff {places : List Nat} {branches : List Layer} :
    (below.branchesTo pending point places).Gives s branches t ↔
      ∃ chains, ((members pending places).mapM fun h => below.chain h (some point)).Gives s chains t
        ∧ branches = chains.map asBranch := by
  induction places generalizing s t branches with
  | nil =>
    simp only [branchesTo, gives_pure_iff, members, List.filterMap_nil, gives_mapM_nil_iff]
    constructor
    · rintro ⟨rfl, rfl⟩
      exact ⟨[], ⟨rfl, rfl⟩, rfl⟩
    · rintro ⟨_, ⟨rfl, rfl⟩, rfl⟩
      exact ⟨rfl, rfl⟩
  | cons i rest ih =>
    rw [branchesTo]
    cases hi : pending[i]? with
    | none =>
      have hskip : members pending (i :: rest) = members pending rest := by simp [members, hi]
      rw [hskip]
      exact ih
    | some head =>
      have htake : members pending (i :: rest) = head :: members pending rest := by
        simp [members, hi]
      simp only [htake, gives_bind_iff, gives_pure_iff, gives_mapM_cons_iff, ih]
      constructor
      · rintro ⟨chain, r, hchain, _, v, ⟨chains, hchains, rfl⟩, rfl, rfl⟩
        exact ⟨chain :: chains, ⟨chain, r, chains, hchain, hchains, rfl⟩, rfl⟩
      · rintro ⟨_, ⟨chain, r, chains, hchain, hchains, rfl⟩, rfl⟩
        exact ⟨chain, r, hchain, _, t, ⟨chains, hchains, rfl⟩, rfl, rfl⟩

variable (g config below) in
/-- The groups of a round: at each meeting, the chains of its heads become the branches. -/
inductive Grouped (pending : List Head) :
    List MeetingPoint → List NodeId → List Head → List NodeId → Prop
  | nil (s : List NodeId) : Grouped pending [] s [] s
  | cons {c : MeetingPoint} {chains : List (List Layer)} {rest : List MeetingPoint}
      {groups : List Head} {s t u : List NodeId}
      (chains_of : ((members pending c.heads).mapM fun h => below.chain h (some c.point)).Gives
        s chains t)
      (complete : chains.length = g.arrivals c.point)
      (groups_of : Grouped pending rest t groups u) :
      Grouped pending (c :: rest) s
        (⟨c.point, some (g.groupAt config c.point (chains.map asBranch))⟩ :: groups) u

theorem gives_groupsAt_cons_iff {c : MeetingPoint} {rest : List MeetingPoint} {taken : List Nat}
    {r : List (Nat × Head) × List Nat} :
    (below.groupsAt g config pending (c :: rest) taken).Gives s r u ↔
      (∀ i ∈ c.heads, i ∉ taken) ∧ ∃ chains t groups,
        ((members pending c.heads).mapM fun h => below.chain h (some c.point)).Gives s chains t ∧
        chains.length = g.arrivals c.point ∧
        (below.groupsAt g config pending rest (c.heads ++ taken)).Gives t (groups, r.2) u ∧
        r.1 = (c.heads.headD 0,
          ⟨c.point, some (g.groupAt config c.point (chains.map asBranch))⟩) :: groups := by
  rw [groupsAt]
  cases hfind : c.heads.find? fun i => i ∈ taken with
  | some i =>
    simp only [not_gives_refuse, false_iff, not_and]
    intro hfree
    have hi := List.find?_some hfind
    exact absurd (of_decide_eq_true hi) (hfree i (List.mem_of_find?_eq_some hfind))
  | none =>
    rw [List.find?_eq_none] at hfind
    simp only [gives_bind_iff, gives_branchesTo_iff, gives_parallelGroup_iff, gives_pure_iff]
    constructor
    · rintro ⟨_, t, ⟨chains, hchains, rfl⟩, _, _, ⟨hlen, rfl, rfl⟩, ⟨groups, marks⟩, _, hrest, rfl,
        rfl⟩
      rw [List.length_map] at hlen
      exact ⟨fun i hi => by simpa using hfind i hi, chains, _, groups, hchains, hlen, hrest, rfl⟩
    · rintro ⟨-, chains, t, groups, hchains, hlen, hrest, hr⟩
      refine ⟨_, _, ⟨chains, hchains, rfl⟩, _, _, ⟨by rw [List.length_map, hlen], rfl, rfl⟩,
        (groups, r.2), u, hrest, ?_, rfl⟩
      rw [← hr]

/-- A round succeeds if no head belongs to two meetings and the chains arrive.  It marks the heads
of all meetings, and each group stands at the place of the first head of its meeting. -/
theorem gives_groupsAt_iff {meetings : List MeetingPoint} {taken marks : List Nat}
    {groups : List (Nat × Head)} :
    (below.groupsAt g config pending meetings taken).Gives s (groups, marks) u ↔
      meetings.Pairwise (fun c d => ∀ i ∈ d.heads, i ∉ c.heads) ∧
      (∀ c ∈ meetings, ∀ i ∈ c.heads, i ∉ taken) ∧
      marks = (meetings.map MeetingPoint.heads).reverse.flatten ++ taken ∧
      groups.map Prod.fst = meetings.map (fun c => c.heads.headD 0) ∧
      Grouped g config below pending meetings s (groups.map Prod.snd) u := by
  induction meetings generalizing s taken groups with
  | nil =>
    rw [groupsAt, gives_pure_iff, Prod.mk.injEq]
    constructor
    · rintro ⟨⟨rfl, rfl⟩, rfl⟩
      exact ⟨.nil, by simp, rfl, rfl, .nil _⟩
    · rintro ⟨-, -, hmarks, hplaces, hgroups⟩
      have hempty : groups = [] := by simpa using hplaces
      subst hempty
      cases hgroups
      exact ⟨⟨rfl, by simpa using hmarks⟩, rfl⟩
  | cons c rest ih =>
    rw [gives_groupsAt_cons_iff]
    simp only [ih, List.pairwise_cons, List.forall_mem_cons, List.mem_append, not_or,
      List.map_cons, List.reverse_cons, List.flatten_append, List.flatten_cons, List.flatten_nil,
      List.append_nil, List.append_assoc]
    constructor
    · rintro ⟨hfree, chains, t, groups, hchains, hlen, ⟨hpair, hfrees, hmarks, hplaces, hgroups⟩,
        rfl⟩
      refine ⟨⟨fun d hd i hi => (hfrees d hd i hi).1, hpair⟩,
        ⟨hfree, fun d hd i hi => (hfrees d hd i hi).2⟩, hmarks, ?_, .cons hchains hlen hgroups⟩
      rw [List.map_cons, hplaces]
    · rintro ⟨⟨hapart, hpair⟩, ⟨hfree, hfrees⟩, hmarks, hplaces, hgroups⟩
      cases groups with
      | nil => simp at hplaces
      | cons group groups =>
        rw [List.map_cons, List.cons.injEq] at hplaces
        obtain ⟨i, head⟩ := group
        obtain ⟨rfl, hplaces⟩ := hplaces
        cases hgroups with
        | cons hchains hlen hgroups =>
          exact ⟨hfree, _, _, groups, hchains, hlen,
            ⟨hpair, fun d hd i hi => ⟨hapart d hd i hi, hfrees d hd i hi⟩, hmarks, hplaces, hgroups⟩,
            rfl⟩

/-! ## Rounds -/

theorem gives_rounds_zero_iff {final : List Head} :
    (below.rounds g config stop 0 pending).Gives s final t ↔ final = pending ∧ t = s := by
  rw [rounds, gives_pure_iff]

theorem gives_rounds_succ_iff {more : Nat} {final : List Head} :
    (below.rounds g config stop (more + 1) pending).Gives s final u ↔
      (g.firstMeetings (pending.map Head.node) stop = [] ∧ final = pending ∧ u = s) ∨
      (g.firstMeetings (pending.map Head.node) stop ≠ [] ∧ ∃ groups marks t,
        (below.groupsAt g config pending (g.firstMeetings (pending.map Head.node) stop) []).Gives
          s (groups, marks) t ∧
        (below.rounds g config stop more (regroup pending groups marks)).Gives t final u) := by
  rw [rounds]
  cases g.firstMeetings (pending.map Head.node) stop with
  | nil => simp only [gives_pure_iff, ne_eq, not_true_eq_false, false_and, or_false, true_and]
  | cons c rest =>
    simp only [gives_bind_iff, Prod.exists, reduceCtorEq, false_and, ne_eq, not_false_eq_true,
      true_and, false_or]

theorem gives_converge_iff {heads : List NodeId} {chains : List (List Layer)} :
    (below.converge g config heads stop).Gives s chains u ↔
      ∃ final t, (below.rounds g config stop heads.length (heads.map fun h => ⟨h, none⟩)).Gives
          s final t ∧
        (final.mapM fun h => below.chain h stop).Gives t chains u := by
  rw [converge, gives_bind_iff]

/-- Several chains are one list of layers only where nothing follows them. -/
theorem gives_mergeHeads_iff {heads : List NodeId} :
    (below.mergeHeads g config heads stop).Gives s layers t ↔
      ∃ chains, (below.converge g config heads stop).Gives s chains t ∧
        ((chains.filter fun chain => !chain.isEmpty) = [] ∧ layers = [] ∨
          (chains.filter fun chain => !chain.isEmpty) = [layers] ∨
          1 < (chains.filter fun chain => !chain.isEmpty).length ∧ stop = none ∧
            layers = [.parallel config.defaultReduction none
              ((chains.filter fun chain => !chain.isEmpty).map asBranch)]) := by
  unfold mergeHeads
  simp only [gives_bind_iff]
  constructor
  · rintro ⟨chains, r, hchains, h⟩
    suffices hr : r = t by
      subst hr
      refine ⟨chains, hchains, ?_⟩
      generalize (chains.filter fun chain => !chain.isEmpty) = full at h ⊢
      match full, stop, h with
      | [], _, h => exact Or.inl ⟨rfl, (gives_pure_iff.1 h).1⟩
      | [_], _, h => exact Or.inr (Or.inl (by rw [(gives_pure_iff.1 h).1]))
      | _ :: _ :: _, none, h => exact Or.inr (Or.inr ⟨by simp, rfl, (gives_pure_iff.1 h).1⟩)
      | _ :: _ :: _, some _, h => exact absurd h not_gives_refuse
    generalize (chains.filter fun chain => !chain.isEmpty) = full at h
    match full, stop, h with
    | [], _, h => exact (gives_pure_iff.1 h).2.symm
    | [_], _, h => exact (gives_pure_iff.1 h).2.symm
    | _ :: _ :: _, none, h => exact (gives_pure_iff.1 h).2.symm
    | _ :: _ :: _, some _, h => exact absurd h not_gives_refuse
  · rintro ⟨chains, hchains, h⟩
    refine ⟨chains, t, hchains, ?_⟩
    generalize (chains.filter fun chain => !chain.isEmpty) = full at h ⊢
    rcases h with ⟨rfl, rfl⟩ | rfl | ⟨hlen, rfl, rfl⟩
    · exact gives_pure_iff.2 ⟨rfl, rfl⟩
    · exact gives_pure_iff.2 ⟨rfl, rfl⟩
    · match full, hlen with
      | _ :: _ :: _, _ => exact gives_pure_iff.2 ⟨rfl, rfl⟩

@[simp] theorem gives_heads_nil_iff :
    (below.heads g config [] stop).Gives s layers t ↔ layers = [] ∧ t = s := by
  rw [heads, gives_pure_iff]

@[simp] theorem gives_heads_single_iff {head : NodeId} :
    (below.heads g config [head] stop).Gives s layers t ↔ (below.node head stop).Gives s layers t :=
  Iff.rfl

theorem gives_heads_iff {heads : List NodeId} (h : 1 < heads.length) :
    (below.heads g config heads stop).Gives s layers t ↔
      (below.mergeHeads g config heads stop).Gives s layers t := by
  match heads, h with
  | _ :: _ :: _, _ => exact Iff.rfl

/-! ## From a node on -/

/-- A node that feeds the merge feeds nothing else. -/
theorem gives_successors_iff :
    (below.successors g config id stop).Gives s layers t ↔
      (stop = none ∨ (g.successors id).filter (fun n => some n ≠ stop) = [] ∨
        (g.successors id).filter (fun n => some n ≠ stop) = g.successors id) ∧
      (below.heads g config ((g.successors id).filter fun n => some n ≠ stop) stop).Gives
        s layers t := by
  cases stop with
  | none => simp [successors]
  | some merge =>
    unfold successors
    have hsub : ((g.successors id).filter fun n => decide (some n ≠ some merge)).length <
        (g.successors id).length ↔
        (g.successors id).filter (fun n => decide (some n ≠ some merge)) ≠ g.successors id := by
      constructor
      · intro hlt he
        rw [he] at hlt
        exact Nat.lt_irrefl _ hlt
      · intro hne
        refine Nat.lt_of_le_of_ne (List.length_filter_le ..) fun he => hne ?_
        exact List.filter_sublist.eq_of_length he
    simp only [hsub]
    split
    · rename_i h
      simp only [not_gives_refuse, false_iff, not_and]
      rintro (h' | h' | h')
      · exact absurd h' (by simp)
      · exact absurd h' h.1
      · exact absurd h' h.2
    · rename_i h
      rw [iff_and_self]
      intro _
      by_cases hnil : (g.successors id).filter (fun n => decide (some n ≠ some merge)) = []
      · exact Or.inr (Or.inl hnil)
      · exact Or.inr (Or.inr (not_not.1 fun hne => h ⟨hnil, hne⟩))

/-- The nodes that the auxiliary outputs of a node feed. -/
def auxHeads (n : Node) : List NodeId :=
  (((auxLinks n).filter fun link => link.1 = .output).map fun link => link.2.node).eraseDups

theorem gives_subgraph_iff {n : Node} {inner : List Layer} {links : List AuxLink} :
    (below.subgraph g config n).Gives s (inner, links) t ↔
      links = (auxLinks n).map Prod.snd ∧
        ((1 < (auxHeads n).length ∧ ∃ chains,
            (below.converge g config (auxHeads n) none).Gives s chains t ∧ inner = chains.flatten) ∨
          ((auxHeads n).length ≤ 1 ∧ (below.heads g config (auxHeads n) none).Gives s inner t)) := by
  unfold subgraph
  by_cases hlen : 1 < (auxHeads n).length
  · have hif := hlen
    unfold auxHeads at hif
    simp only [hif, hlen, if_true, gives_bind_iff, gives_pure_iff, Prod.mk.injEq]
    constructor
    · rintro ⟨chains, _, hchains, _, _, ⟨rfl, rfl⟩, ⟨rfl, rfl⟩, rfl⟩
      exact ⟨rfl, Or.inl ⟨trivial, chains, hchains, rfl⟩⟩
    · rintro ⟨rfl, ⟨-, chains, hchains, rfl⟩ | ⟨hle, -⟩⟩
      · exact ⟨chains, t, hchains, _, t, ⟨rfl, rfl⟩, ⟨rfl, rfl⟩, rfl⟩
      · exact absurd hlen (Nat.not_lt.2 hle)
  · have hif := hlen
    unfold auxHeads at hif
    simp only [hif, hlen, if_false, gives_bind_iff, gives_pure_iff, Prod.mk.injEq]
    constructor
    · rintro ⟨_, _, h, ⟨rfl, rfl⟩, rfl⟩
      exact ⟨rfl, Or.inr ⟨Nat.not_lt.1 hlen, h⟩⟩
    · rintro ⟨rfl, ⟨hlt, -⟩ | ⟨-, h⟩⟩
      · exact absurd hlt id
      · exact ⟨inner, t, h, ⟨rfl, rfl⟩, rfl⟩

theorem gives_expandNode_stop : (below.expandNode g config id (some id)).Gives s layers t ↔
    layers = [] ∧ t = s := by
  rw [expandNode, if_pos rfl, gives_pure_iff]

/-- A node is placed once, may have one input at most, and is followed by what it feeds. -/
theorem gives_expandNode_iff {n : Node} (hstop : some id ≠ stop) (hn : g.node? id = some n) :
    (below.expandNode g config id stop).Gives s layers u ↔
      id ∉ s ∧ (g.predecessors id).length ≤ 1 ∧ ∃ inner links t children,
        (if n.isSpecial then (below.subgraph g config n).Gives (id :: s) (inner, links) t
          else inner = [] ∧ links = [] ∧ t = id :: s) ∧
        (below.successors g config id stop).Gives t children u ∧
        layers = [.node ⟨n.id, n.layerType, n.floatParams, n.stringParams⟩ inner links children] := by
  rw [expandNode, if_neg hstop, hn]
  simp only [gives_bind_iff, gives_place_iff]
  constructor
  · rintro ⟨_, _, ⟨hfree, rfl⟩, h⟩
    split at h
    · exact absurd h not_gives_refuse
    · rename_i hle
      cases hspecial : n.isSpecial with
      | true =>
        simp only [hspecial, if_true, gives_bind_iff, gives_pure_iff] at h
        obtain ⟨⟨inner, links⟩, t, hsub, children, v, hsucc, rfl, rfl⟩ := h
        exact ⟨hfree, Nat.not_lt.1 hle, inner, links, t, children, hsub, hsucc, rfl⟩
      | false =>
        simp only [hspecial, Bool.false_eq_true, if_false, gives_bind_iff, gives_pure_iff] at h
        obtain ⟨_, _, ⟨rfl, rfl⟩, children, v, hsucc, rfl, rfl⟩ := h
        exact ⟨hfree, Nat.not_lt.1 hle, [], [], _, children, ⟨rfl, rfl, rfl⟩, hsucc, rfl⟩
  · rintro ⟨hfree, hle, inner, links, t, children, hsub, hsucc, rfl⟩
    refine ⟨(), id :: s, ⟨hfree, rfl⟩, ?_⟩
    rw [if_neg (Nat.not_lt.2 hle)]
    cases hspecial : n.isSpecial with
    | true =>
      rw [hspecial, if_pos rfl] at hsub
      simp only [if_true, gives_bind_iff, gives_pure_iff]
      exact ⟨(inner, links), t, hsub, children, u, hsucc, rfl, rfl⟩
    | false =>
      rw [hspecial, if_neg Bool.false_ne_true] at hsub
      obtain ⟨rfl, rfl, rfl⟩ := hsub
      simp only [Bool.false_eq_true, if_false, gives_bind_iff, gives_pure_iff]
      exact ⟨([], []), _, ⟨rfl, rfl⟩, children, u, hsucc, rfl, rfl⟩

theorem gives_expandAfterGroup_stop : (below.expandAfterGroup g config id (some id)).Gives s layers t
    ↔ layers = [] ∧ t = s := by
  rw [expandAfterGroup, if_pos rfl, gives_pure_iff]

/-- A group stands for the merging node at its end, which is placed once. -/
theorem gives_expandAfterGroup_iff {n : Node} (hstop : some id ≠ stop) (hn : g.node? id = some n)
    (hmerge : g.catalog.isMerge n.layerType = true) :
    (below.expandAfterGroup g config id stop).Gives s layers t ↔
      id ∉ s ∧ (below.successors g config id stop).Gives (id :: s) layers t := by
  rw [expandAfterGroup, if_neg hstop, hn]
  simp only [hmerge, if_true, gives_bind_iff, gives_place_iff]
  constructor
  · rintro ⟨_, _, ⟨hfree, rfl⟩, h⟩
    exact ⟨hfree, h⟩
  · rintro ⟨hfree, h⟩
    exact ⟨(), id :: s, ⟨hfree, rfl⟩, h⟩

end Expander

/-! ## The whole network -/

/-- A network compiles to a forest if nothing stands against it and its inputs expand to the
forest. -/
theorem Graph.compile_eq_ok_iff {forest : List Layer} :
    g.compile config = .ok forest ↔
      g.validate.hasErrors = false ∧ g.realInputs ≠ [] ∧ ∃ t,
        ((g.expander config).heads g config g.realInputs none).Gives [] forest t := by
  rw [Graph.compile]
  cases hreport : g.validate.hasErrors with
  | true => simp
  | false =>
    cases hinputs : g.realInputs with
    | nil => simp
    | cons input rest =>
      simp only [Bool.false_eq_true, if_false, Gives, StateT.run', Functor.map,
        Except.map, true_and, ne_eq, reduceCtorEq, not_false_eq_true]
      cases (g.expander config).heads g config (input :: rest) none [] with
      | error e => simp
      | ok r =>
        simp only [Except.ok.injEq]
        constructor
        · rintro rfl
          exact ⟨r.2, rfl⟩
        · rintro ⟨t, rfl⟩
          rfl

end LayerNet
