import LayerNet.Proofs.Parts
import LayerNet.Proofs.Placement

/-!
# The normal form of compiled forests

`NormalForm` says how the layers of a compiled forest fit together: a group has at least two branches,
of which at most one does nothing, and then the branches meet; a sequence is a branch of a group and
never has one step only; and branches that never meet come last, and never on the way to a meeting
point.

* `Graph.TidyBy` — the contract of a level of expansion: what it gives up to a stop is in normal form,
  and nothing on the way to a stop stays apart;
* `Graph.TidyBy.rounds` — the invariant of the rounds of grouping: no two heads without a group stand
  at the same node, so that only one branch of a group can be empty;
* `Graph.Edited.normalForm_of_compile` — the normal form of what compiles.
-/

namespace LayerNet

namespace Layer

/-! ## Normal forms -/

/-- A group whose branches never meet. -/
def isFan : Layer → Bool
  | parallel _ none _ => true
  | _ => false

/-- A sequence, of any length. -/
def isSequence : Layer → Bool
  | sequence _ => true
  | _ => false

/-- The branch that passes its value on unchanged. -/
def isIdentity : Layer → Bool
  | sequence [] => true
  | _ => false

mutual

/-- The layers of a tree at any depth, those in subgraphs aside; the tree itself first. -/
def outerParts : Layer → List Layer
  | node source inner links children => node source inner links children :: forestOuterParts children
  | sequence steps => sequence steps :: forestOuterParts steps
  | parallel reduction merge branches =>
    parallel reduction merge branches :: forestOuterParts branches

/-- The layers of a forest at any depth, those in subgraphs aside. -/
def forestOuterParts : List Layer → List Layer
  | [] => []
  | layer :: layers => outerParts layer ++ forestOuterParts layers

end

/-- Layers that follow each other: none of them is a sequence, and branches that never meet come only
at the end. -/
structure Steps (layers : List Layer) : Prop where
  flat : ∀ layer ∈ layers, layer.isSequence = false
  fan_last : ∀ layer ∈ layers.dropLast, layer.isFan = false

instance (layers : List Layer) : Decidable (Steps layers) :=
  decidable_of_iff ((∀ layer ∈ layers, layer.isSequence = false) ∧
      ∀ layer ∈ layers.dropLast, layer.isFan = false)
    ⟨fun h => ⟨h.1, h.2⟩, fun h => ⟨h.flat, h.fan_last⟩⟩

/-- How a group fits together: there are two branches at least, one of them at most does nothing, and
then they meet; branches that never meet come last, and if the branches of the group meet, there are
none in them. -/
structure NormalGroup (merge : Option NodeId) (branches : List Layer) : Prop where
  several : 2 ≤ branches.length
  identities : branches.countP isIdentity ≤ 1
  merges : (∃ branch ∈ branches, branch.isIdentity = true) → merge.isSome = true
  fan_last : ∀ branch ∈ branches.dropLast, branch.isFan = false
  joined : merge.isSome = true → ∀ part ∈ forestOuterParts branches, part.isFan = false

instance (merge : Option NodeId) (branches : List Layer) : Decidable (NormalGroup merge branches) :=
  decidable_of_iff (2 ≤ branches.length ∧ branches.countP isIdentity ≤ 1 ∧
      ((∃ branch ∈ branches, branch.isIdentity = true) → merge.isSome = true) ∧
      (∀ branch ∈ branches.dropLast, branch.isFan = false) ∧
      (merge.isSome = true → ∀ part ∈ forestOuterParts branches, part.isFan = false))
    ⟨fun ⟨h1, h2, h3, h4, h5⟩ => ⟨h1, h2, h3, h4, h5⟩,
      fun h => ⟨h.several, h.identities, h.merges, h.fan_last, h.joined⟩⟩

/-- How a layer fits together with those directly below it. -/
def Normal : Layer → Prop
  | node _ inner _ children => (∀ layer ∈ inner, layer.isSequence = false) ∧ Steps children
  | sequence steps => steps.length ≠ 1 ∧ Steps steps
  | parallel _ merge branches => NormalGroup merge branches

instance : DecidablePred Normal
  | node _ inner _ children =>
    inferInstanceAs (Decidable ((∀ layer ∈ inner, layer.isSequence = false) ∧ Steps children))
  | sequence steps => inferInstanceAs (Decidable (steps.length ≠ 1 ∧ Steps steps))
  | parallel _ merge branches => inferInstanceAs (Decidable (NormalGroup merge branches))

/-- A forest in normal form, at every depth and inside every subgraph. -/
structure NormalForm (forest : List Layer) : Prop where
  steps : Steps forest
  parts : ∀ part ∈ forestParts forest, part.Normal

instance (forest : List Layer) : Decidable (NormalForm forest) :=
  decidable_of_iff (Steps forest ∧ ∀ part ∈ forestParts forest, part.Normal)
    ⟨fun h => ⟨h.1, h.2⟩, fun h => ⟨h.steps, h.parts⟩⟩

theorem forestOuterParts_eq (forest : List Layer) :
    forestOuterParts forest = forest.flatMap outerParts := by
  induction forest with
  | nil => rfl
  | cons layer layers ih => rw [forestOuterParts, ih, List.flatMap_cons]

theorem mem_outerParts_self (layer : Layer) : layer ∈ layer.outerParts := by
  cases layer <;> exact List.mem_cons_self

end Layer

open Layer Expander Expansion

/-! ## Tidy layers -/

/-- Layers as an expansion gives them: in normal form, and if they lead up to a stop, nothing in them
stays apart. -/
structure Tidy (stop : Option NodeId) (layers : List Layer) : Prop where
  steps : Steps layers
  parts : ∀ part ∈ forestParts layers, part.Normal
  joined : stop.isSome = true → ∀ part ∈ forestOuterParts layers, part.isFan = false

/-- The layers of one head do not begin with branches that never meet. -/
structure TidyChain (stop : Option NodeId) (layers : List Layer) : Prop extends Tidy stop layers where
  first : ∀ layer ∈ layers.head?, layer.isFan = false

variable {stop merge : Option NodeId} {layer : Layer} {layers rest inner children : List Layer}
  {chains : List (List Layer)} {p : NodeId}

theorem tidyChain_nil (stop : Option NodeId) : TidyChain stop [] where
  steps := ⟨nofun, nofun⟩
  parts := nofun
  joined _ := nofun
  first := nofun

/-- A layer in which nothing stays apart, before others. -/
theorem Tidy.cons (hlayer : Tidy (some p) [layer]) (hrest : Tidy stop rest) :
    TidyChain stop (layer :: rest) := by
  have hfan : layer.isFan = false :=
    hlayer.joined rfl layer (List.mem_append_left _ (mem_outerParts_self layer))
  refine ⟨⟨?steps, ?parts, ?joined⟩, ?first⟩
  case steps =>
    refine ⟨List.forall_mem_cons.2 ⟨hlayer.steps.flat _ List.mem_cons_self, hrest.steps.flat⟩, ?_⟩
    cases rest with
    | nil => exact nofun
    | cons next rest =>
      rw [List.dropLast_cons_cons]
      exact List.forall_mem_cons.2 ⟨hfan, hrest.steps.fan_last⟩
  case parts =>
    rw [forestParts, List.forall_mem_append]
    refine ⟨fun part hpart => hlayer.parts part ?_, hrest.parts⟩
    rwa [forestParts, forestParts, List.append_nil]
  case joined =>
    intro hstop
    rw [forestOuterParts, List.forall_mem_append]
    refine ⟨fun part hpart => hlayer.joined rfl part ?_, hrest.joined hstop⟩
    rwa [forestOuterParts, forestOuterParts, List.append_nil]
  case first =>
    intro _ h
    obtain rfl := Option.some.inj h
    exact hfan

/-! ## Branches -/

theorem TidyChain.isFan_asBranch (h : TidyChain stop layers) : (asBranch layers).isFan = false := by
  match layers with
  | [] => rfl
  | [step] => exact h.first step rfl
  | _ :: _ :: _ => rfl

/-- A branch does nothing if there is nothing on the way. -/
theorem TidyChain.isIdentity_asBranch (h : TidyChain stop layers) :
    (asBranch layers).isIdentity = layers.isEmpty := by
  match layers with
  | [] => rfl
  | [step] =>
    have hflat := h.steps.flat step List.mem_cons_self
    cases step with
    | node _ _ _ _ => rfl
    | sequence _ => cases hflat
    | parallel _ _ _ => rfl
  | _ :: _ :: _ => rfl

theorem TidyChain.normal_asBranch (h : TidyChain stop layers) :
    ∀ part ∈ (asBranch layers).parts, part.Normal := by
  match layers with
  | [] =>
    intro part hpart
    obtain rfl := List.mem_singleton.1 hpart
    exact ⟨by decide, h.steps⟩
  | [step] =>
    intro part hpart
    exact h.parts part (List.mem_append_left _ hpart)
  | first :: second :: rest =>
    refine List.forall_mem_cons.2 ⟨⟨?_, h.steps⟩, h.parts⟩
    rw [List.length_cons, List.length_cons]
    omega

theorem TidyChain.joined_asBranch (h : TidyChain stop layers) (hstop : stop.isSome = true) :
    ∀ part ∈ (asBranch layers).outerParts, part.isFan = false := by
  match layers with
  | [] =>
    intro part hpart
    obtain rfl := List.mem_singleton.1 hpart
    rfl
  | [step] =>
    intro part hpart
    exact h.joined hstop part (List.mem_append_left _ hpart)
  | first :: second :: rest => exact List.forall_mem_cons.2 ⟨rfl, h.joined hstop⟩

/-- There are as many branches that do nothing as chains without layers. -/
theorem countP_isIdentity (h : ∀ chain ∈ chains, TidyChain stop chain) :
    (chains.map asBranch).countP isIdentity = chains.countP List.isEmpty := by
  rw [List.countP_map]
  refine List.countP_congr fun chain hchain => ?_
  rw [Function.comp_apply, (h chain hchain).isIdentity_asBranch]

/-- A group of chains, of which at most one is empty if they meet and none if they do not. -/
theorem tidy_group {r : Reduction} (h : ∀ chain ∈ chains, TidyChain merge chain)
    (hseveral : 2 ≤ chains.length) (hempty : chains.countP List.isEmpty ≤ 1)
    (hmerge : merge = none → ∀ chain ∈ chains, chain ≠ []) :
    Tidy merge [.parallel r merge (chains.map asBranch)] := by
  have hfan : ∀ branch ∈ chains.map asBranch, branch.isFan = false := by
    rw [List.forall_mem_map]
    exact fun chain hchain => (h chain hchain).isFan_asBranch
  have hjoined : merge.isSome = true →
      ∀ part ∈ forestOuterParts (chains.map asBranch), part.isFan = false := by
    intro hsome part hpart
    rw [forestOuterParts_eq, List.flatMap_map, List.mem_flatMap] at hpart
    obtain ⟨chain, hchain, hpart⟩ := hpart
    exact (h chain hchain).joined_asBranch hsome part hpart
  have hnormal : NormalGroup merge (chains.map asBranch) := by
    constructor
    case several => rwa [List.length_map]
    case identities => rwa [countP_isIdentity h]
    case merges =>
      rintro ⟨branch, hbranch, hidentity⟩
      obtain ⟨chain, hchain, rfl⟩ := List.mem_map.1 hbranch
      rw [(h chain hchain).isIdentity_asBranch, List.isEmpty_iff] at hidentity
      refine Option.isSome_iff_ne_none.2 fun hnone => ?_
      exact hmerge hnone chain hchain hidentity
    case fan_last => exact fun branch hbranch => hfan branch (List.mem_of_mem_dropLast hbranch)
    case joined => exact hjoined
  constructor
  case steps => exact ⟨by simp [isSequence], nofun⟩
  case parts =>
    rw [forestParts, forestParts, List.append_nil]
    refine List.forall_mem_cons.2 ⟨hnormal, fun part hpart => ?_⟩
    rw [forestParts_eq, List.flatMap_map, List.mem_flatMap] at hpart
    obtain ⟨chain, hchain, hpart⟩ := hpart
    exact (h chain hchain).normal_asBranch part hpart
  case joined =>
    intro hsome
    rw [forestOuterParts, forestOuterParts, List.append_nil]
    refine List.forall_mem_cons.2 ⟨?_, hjoined hsome⟩
    obtain ⟨p, rfl⟩ := Option.isSome_iff_exists.1 hsome
    rfl

/-- The layer of a node, with its subgraph and what follows it. -/
theorem tidy_node {source : LayerNode} {links : List AuxLink}
    (hflat : ∀ layer ∈ inner, layer.isSequence = false)
    (hinner : ∀ part ∈ forestParts inner, part.Normal) (hchildren : Tidy stop children) :
    TidyChain stop [.node source inner links children] := by
  refine ⟨⟨?steps, ?parts, ?joined⟩, ?first⟩
  case steps => exact ⟨by simp [isSequence], nofun⟩
  case parts =>
    rw [forestParts, forestParts, List.append_nil, parts]
    refine List.forall_mem_cons.2 ⟨⟨hflat, hchildren.steps⟩, ?_⟩
    exact List.forall_mem_append.2 ⟨hinner, hchildren.parts⟩
  case joined =>
    intro hstop
    rw [forestOuterParts, forestOuterParts, List.append_nil]
    exact List.forall_mem_cons.2 ⟨rfl, hchildren.joined hstop⟩
  case first =>
    intro _ h
    obtain rfl := Option.some.inj h
    rfl

/-- Chains side by side, as the subgraph of a special layer. -/
theorem tidy_flatten (h : ∀ chain ∈ chains, TidyChain stop chain) :
    (∀ layer ∈ chains.flatten, layer.isSequence = false) ∧
      ∀ part ∈ forestParts chains.flatten, part.Normal := by
  constructor
  · intro layer hlayer
    obtain ⟨chain, hchain, hlayer⟩ := List.mem_flatten.1 hlayer
    exact (h chain hchain).steps.flat layer hlayer
  · intro part hpart
    rw [forestParts_eq, List.mem_flatMap] at hpart
    obtain ⟨layer, hlayer, hpart⟩ := hpart
    obtain ⟨chain, hchain, hlayer⟩ := List.mem_flatten.1 hlayer
    refine (h chain hchain).parts part ?_
    rw [forestParts_eq]
    exact List.mem_flatMap.2 ⟨layer, hlayer, hpart⟩

/-! ## Heads -/

namespace Graph

variable {g : Graph} {config : CompilerConfig} {below : Expander} {s t u roots : List NodeId}
  {pending final groups l : List Head} {meetings : List MeetingPoint} {id : NodeId} {n : Node}
  {h : Head}

/-- A head whose group, if it has one, is in normal form, with nothing in it that stays apart. -/
def TidyHead (h : Head) : Prop :=
  ∀ group, h.group = some group → Tidy (some h.node) [group]

/-- Whether a head stands at a node and has no group. -/
def isBareAt (p : NodeId) (h : Head) : Bool := h.group.isNone && h.node = p

/-- No two heads without a group stand at one node. -/
def BareOnce (pending : List Head) : Prop := ∀ p, pending.countP (isBareAt p) ≤ 1

theorem bareOnce_of_nodup (h : roots.Nodup) : BareOnce (roots.map fun id => ⟨id, none⟩) := by
  intro p
  rw [List.countP_map]
  refine Nat.le_trans (Nat.le_of_eq ?_) (List.nodup_iff_count_le_one.1 h p)
  exact List.countP_congr fun id _ => by simp [isBareAt]

/-- The heads of a meeting are among all heads. -/
theorem countP_members_le {places : List Nat} (hplaces : places.Nodup) (f : Head → Bool) :
    (members pending places).countP f ≤ pending.countP f := by
  have hcount : (members pending places ++ others pending places).countP f = pending.countP f :=
    (members_append_others_perm hplaces).countP_eq f
  rw [List.countP_append] at hcount
  omega

/-! ## Levels -/

/-- A level of expansion that gives tidy layers.  A node that is not the stop is not left out. -/
structure TidyBy (g : Graph) (below : Expander) : Prop where
  node : ∀ {id stop s layers t}, (below.node id stop).Gives s layers t →
    TidyChain stop layers ∧ (layers = [] → id ∈ g.ids → some id = stop)
  afterGroup : ∀ {id stop s layers t}, g.Merging id → (below.afterGroup id stop).Gives s layers t →
    Tidy stop layers

/-- The chain of a head is empty only if the head stands at the stop and has no group. -/
theorem TidyBy.chain (hb : g.TidyBy below) (hready : g.Ready h) (hh : TidyHead h)
    (run : (below.chain h stop).Gives s layers t) :
    TidyChain stop layers ∧ (layers = [] → ∀ p, stop = some p → isBareAt p h = true) := by
  obtain ⟨id, _ | group⟩ := h
  · obtain ⟨hchain, hempty⟩ := hb.node (gives_chain_iff_of_none.1 run)
    refine ⟨hchain, fun hnil p hp => ?_⟩
    have hstop := hempty hnil hready.mem
    rw [hp, Option.some.injEq] at hstop
    simp [isBareAt, hstop]
  · obtain ⟨rest, hrest, rfl⟩ := gives_chain_iff_of_some.1 run
    exact ⟨(hh group rfl).cons (hb.afterGroup (hready.group group rfl).1 hrest), nofun⟩

/-- At most as many chains are empty as there are bare heads at the stop. -/
theorem TidyBy.mapM_chain (hb : g.TidyBy below) (hready : ∀ h ∈ l, g.Ready h)
    (hl : ∀ h ∈ l, TidyHead h) (run : (l.mapM fun h => below.chain h stop).Gives s chains t) :
    (∀ chain ∈ chains, TidyChain stop chain) ∧
      ∀ p, stop = some p → chains.countP List.isEmpty ≤ l.countP (isBareAt p) := by
  induction l generalizing s chains with
  | nil =>
    obtain ⟨rfl, -⟩ := gives_mapM_nil_iff.1 run
    exact ⟨nofun, fun p _ => Nat.le_refl _⟩
  | cons h l ih =>
    obtain ⟨chain, r, rest, hone, hrest, rfl⟩ := gives_mapM_cons_iff.1 run
    rw [List.forall_mem_cons] at hready hl
    obtain ⟨hchain, hbare⟩ := hb.chain hready.1 hl.1 hone
    obtain ⟨hchains, hle⟩ := ih hready.2 hl.2 hrest
    refine ⟨List.forall_mem_cons.2 ⟨hchain, hchains⟩, fun p hp => ?_⟩
    have hle := hle p hp
    rw [List.countP_cons, List.countP_cons]
    cases chain with
    | nil =>
      rw [hbare rfl p hp]
      exact Nat.add_le_add_right hle 1
    | cons layer chain =>
      rw [if_neg (by simp)]
      omega

/-- The groups of a round are tidy. -/
theorem TidyBy.grouped (hb : g.TidyBy below) (hf : g.Front stop pending)
    (hp : ∀ h ∈ pending, TidyHead h) (hbare : BareOnce pending)
    (hmeet : ∀ c ∈ meetings, g.Meets stop pending c) (hmerging : ∀ k ∈ groups, g.Merging k.node)
    (run : Grouped g config below pending meetings s groups u) :
    ∀ k ∈ groups, TidyHead k := by
  induction run with
  | nil s => exact nofun
  | @cons c chains rest groups s t u hchains hlen hrest ih =>
    rw [List.forall_mem_cons] at hmeet hmerging
    refine List.forall_mem_cons.2 ⟨?_, ih hmeet.2 hmerging.2⟩
    intro group hgroup
    obtain ⟨r, hr⟩ := hmerging.1.groupAt config (chains.map asBranch)
    obtain rfl : _ = group := Option.some.inj hgroup
    rw [hr]
    have hmem : ∀ h ∈ members pending c.heads, h ∈ pending := by
      intro h hh
      obtain ⟨i, -, hget⟩ := mem_members.1 hh
      exact List.mem_of_getElem? hget
    obtain ⟨htidy, hempty⟩ := hb.mapM_chain (fun h hh => hf.ready h (hmem h hh))
      (fun h hh => hp h (hmem h hh)) hchains
    refine tidy_group htidy ?_ ?_ nofun
    · rw [length_of_gives_mapM hchains, hmeet.1.length_members]
      exact hmeet.1.several
    · refine (hempty c.point rfl).trans ((countP_members_le hmeet.1.nodup _).trans (hbare c.point))

/-- The heads that the rounds leave form a front of tidy heads, bare at different nodes. -/
theorem TidyBy.rounds {fuel : Nat} (hb : g.TidyBy below) (hw : g.WellFormed) (hs : g.Sound)
    (hf : g.Front stop pending) (hp : ∀ h ∈ pending, TidyHead h) (hbare : BareOnce pending)
    (run : (below.rounds g config stop fuel pending).Gives s final u) :
    g.Front stop final ∧ ∀ h ∈ final, TidyHead h := by
  induction fuel generalizing pending s with
  | zero =>
    obtain ⟨rfl, -⟩ := gives_rounds_zero_iff.1 run
    exact ⟨hf, hp⟩
  | succ fuel ih =>
    rcases gives_rounds_succ_iff.1 run with ⟨-, rfl, -⟩ | ⟨-, placed, marks, t, hround, hmore⟩
    · exact ⟨hf, hp⟩
    obtain ⟨hapart, hgrouped, hregroup, -⟩ := groupsAt_round hround
    have hmeet : ∀ c ∈ g.firstMeetings (pending.map Head.node) stop, g.Meets stop pending c :=
      fun c hc => meets_of_mem hc
    have hothers := others_sublist pending
      ((g.firstMeetings (pending.map Head.node) stop).flatMap MeetingPoint.heads)
    have hf' := hf.round hw hs hmeet hapart hgrouped
    have hgroup : ∀ k ∈ placed.map Prod.snd, ∃ group, k.group = some group := by
      intro k hk
      obtain ⟨c, -, chains, -, -, rfl⟩ := hgrouped.exists_chains hk
      exact ⟨_, rfl⟩
    have hmerging : ∀ k ∈ placed.map Prod.snd, g.Merging k.node := by
      intro k hk
      obtain ⟨group, he⟩ := hgroup k hk
      exact ((hf'.ready k (List.mem_append_left _ hk)).group group he).1
    have hgroups := hb.grouped hf hp hbare hmeet hmerging hgrouped
    refine ih (hf'.perm hregroup.symm) (fun k hk => ?_) (fun p => ?_) hmore
    · rcases List.mem_append.1 (hregroup.mem_iff.1 hk) with hk | hk
      · exact hgroups k hk
      · exact hp k (hothers.mem hk)
    · -- the new heads have groups, and the others were there before
      have hnone : (placed.map Prod.snd).countP (isBareAt p) = 0 := by
        refine List.countP_eq_zero.2 fun k hk => ?_
        obtain ⟨group, he⟩ := hgroup k hk
        simp [isBareAt, he]
      rw [hregroup.countP_eq, List.countP_append, hnone, Nat.zero_add]
      exact hothers.countP_le.trans (hbare p)

theorem TidyBy.converge (hb : g.TidyBy below) (hw : g.WellFormed) (hs : g.Sound)
    (hids : ∀ id ∈ roots, id ∈ g.ids) (hstop : ∀ id ∈ roots, some id ≠ stop) (hnodup : roots.Nodup)
    (run : (below.converge g config roots stop).Gives s chains u) :
    ∀ chain ∈ chains, TidyChain stop chain := by
  obtain ⟨final, t, hrounds, hchains⟩ := gives_converge_iff.1 run
  have hplain : ∀ h ∈ roots.map fun id => (⟨id, none⟩ : Head), TidyHead h := by
    rw [List.forall_mem_map]
    exact fun id _ => nofun
  obtain ⟨hfront, hfinal⟩ := hb.rounds hw hs (front_of_nodes hids hstop) hplain
    (bareOnce_of_nodup hnodup) hrounds
  exact (hb.mapM_chain hfront.ready hfinal hchains).1

/-- Chains that stay apart become the branches of a group only if there is no stop. -/
theorem TidyBy.heads (hb : g.TidyBy below) (hw : g.WellFormed) (hs : g.Sound)
    (hids : ∀ id ∈ roots, id ∈ g.ids) (hstop : ∀ id ∈ roots, some id ≠ stop) (hnodup : roots.Nodup)
    (run : (below.heads g config roots stop).Gives s layers t) : Tidy stop layers := by
  match roots with
  | [] =>
    obtain ⟨rfl, -⟩ := gives_heads_nil_iff.1 run
    exact (tidyChain_nil stop).toTidy
  | [head] => exact (hb.node (gives_heads_single_iff.1 run)).1.toTidy
  | first :: second :: others =>
    rw [gives_heads_iff (by simp), gives_mergeHeads_iff] at run
    obtain ⟨chains, hconverge, hlayers⟩ := run
    have hchains := hb.converge hw hs hids hstop hnodup hconverge
    have hfull : ∀ chain ∈ chains.filter fun chain => !chain.isEmpty,
        TidyChain stop chain ∧ chain ≠ [] := by
      intro chain hchain
      obtain ⟨hmem, hne⟩ := List.mem_filter.1 hchain
      exact ⟨hchains chain hmem, by simpa using hne⟩
    rcases hlayers with ⟨-, rfl⟩ | hone | ⟨hseveral, rfl, rfl⟩
    · exact (tidyChain_nil stop).toTidy
    · exact (hfull layers (by simp [hone])).1.toTidy
    · refine tidy_group (fun chain hchain => (hfull chain hchain).1) hseveral ?_
        fun _ chain hchain => (hfull chain hchain).2
      refine Nat.le_trans (Nat.le_of_eq (List.countP_eq_zero.2 fun chain hchain => ?_)) (Nat.zero_le 1)
      simpa using (hfull chain hchain).2

theorem TidyBy.successors (hb : g.TidyBy below) (hw : g.WellFormed) (hs : g.Sound)
    (run : (below.successors g config id stop).Gives s layers t) : Tidy stop layers := by
  obtain ⟨-, run⟩ := gives_successors_iff.1 run
  refine hb.heads hw hs (fun b hb => ?_) (fun b hb => ?_) ?_ run
  · exact hw.flows_mem_ids (List.mem_of_mem_filter hb)
  · simpa using (List.mem_filter.1 hb).2
  · exact (g.nodup_successors id).sublist List.filter_sublist

theorem TidyBy.subgraph {links : List AuxLink} (hb : g.TidyBy below) (hw : g.WellFormed)
    (hs : g.Sound) (hn : g.node? id = some n)
    (run : (below.subgraph g config n).Gives s (inner, links) t) :
    (∀ layer ∈ inner, layer.isSequence = false) ∧ ∀ part ∈ forestParts inner, part.Normal := by
  have hids : ∀ a ∈ auxHeads n, a ∈ g.ids := by
    intro a ha
    obtain ⟨i, hi⟩ := (hw.mem_auxHeads hn).1 ha
    exact hw.peer_mem_ids hi
  obtain ⟨-, ⟨-, chains, hchains, rfl⟩ | ⟨-, hheads⟩⟩ := gives_subgraph_iff.1 run
  · exact tidy_flatten (hb.converge hw hs hids (by simp) (nodup_eraseDups _) hchains)
  · have hinner := hb.heads hw hs hids (by simp) (nodup_eraseDups _) hheads
    exact ⟨hinner.steps.flat, hinner.parts⟩

theorem TidyBy.expandNode (hb : g.TidyBy below) (hw : g.WellFormed) (hs : g.Sound)
    (run : (below.expandNode g config id stop).Gives s layers u) :
    TidyChain stop layers ∧ (layers = [] → id ∈ g.ids → some id = stop) := by
  by_cases hstop : some id = stop
  · subst hstop
    obtain ⟨rfl, -⟩ := gives_expandNode_stop.1 run
    exact ⟨tidyChain_nil _, fun _ _ => rfl⟩
  · cases hn : g.node? id with
    | none =>
      rw [Expander.expandNode, if_neg hstop, hn] at run
      obtain ⟨rfl, -⟩ := gives_pure_iff.1 run
      refine ⟨tidyChain_nil _, fun _ hid => ?_⟩
      rw [mem_ids, hn] at hid
      cases hid
    | some n =>
      obtain ⟨-, -, inner, links, t, children, hinner, hchildren, rfl⟩ :=
        (gives_expandNode_iff hstop hn).1 run
      refine ⟨?_, fun hnil => absurd hnil (List.cons_ne_nil _ _)⟩
      have hsub : (∀ layer ∈ inner, layer.isSequence = false) ∧
          ∀ part ∈ forestParts inner, part.Normal := by
        cases hspecial : n.isSpecial with
        | true =>
          rw [hspecial, if_pos rfl] at hinner
          exact hb.subgraph hw hs hn hinner
        | false =>
          rw [hspecial, if_neg Bool.false_ne_true] at hinner
          obtain ⟨rfl, -⟩ := hinner
          exact ⟨fun _ h => absurd h List.not_mem_nil, fun _ h => absurd h List.not_mem_nil⟩
      exact tidy_node hsub.1 hsub.2 (hb.successors hw hs hchildren)

/-- A level of expansion on tidy levels is tidy. -/
theorem TidyBy.deeper (hb : g.TidyBy below) (hw : g.WellFormed) (hs : g.Sound) :
    g.TidyBy (below.deeper g config) where
  node run := hb.expandNode hw hs run
  afterGroup {id stop _ _ _} hmerging run := by
    by_cases hstop : some id = stop
    · subst hstop
      obtain ⟨rfl, -⟩ := gives_expandAfterGroup_stop.1 run
      exact (tidyChain_nil _).toTidy
    · obtain ⟨n, hn, hmerge⟩ := hmerging
      exact hb.successors hw hs ((gives_expandAfterGroup_iff hstop hn hmerge).1 run).2

theorem tidyBy_exhausted (g : Graph) : g.TidyBy (exhausted g) where
  node {id stop _ _ _} run := by
    simp only [exhausted] at run
    split at run
    · rename_i hdone
      obtain ⟨rfl, -⟩ := gives_pure_iff.1 run
      refine ⟨tidyChain_nil stop, fun _ hid => hdone.resolve_right fun hnone => ?_⟩
      rw [mem_ids] at hid
      rw [Option.isNone_iff_eq_none] at hnone
      simp [hnone] at hid
    · exact absurd run not_gives_refuse
  afterGroup {id stop _ _ _} hmerging run := by
    obtain ⟨n, hn, -⟩ := hmerging
    simp only [exhausted, hn] at run
    split at run
    · obtain ⟨rfl, -⟩ := gives_pure_iff.1 run
      exact (tidyChain_nil stop).toTidy
    · exact absurd run not_gives_refuse

theorem tidyBy_expander (hw : g.WellFormed) (hs : g.Sound) (config : CompilerConfig) :
    g.TidyBy (g.expander config) := by
  have hlevels : ∀ k, g.TidyBy (levels g config k) := by
    intro k
    induction k with
    | zero => exact tidyBy_exhausted g
    | succ k ih => exact ih.deeper hw hs
  exact hlevels g.size

/-- A compiled forest is in normal form. -/
theorem Edited.normalForm_of_compile {forest : List Layer} (hg : g.Edited)
    (h : g.compile config = .ok forest) : NormalForm forest := by
  have hw := hg.wellFormed
  obtain ⟨hreport, -, t, run⟩ := compile_eq_ok_iff.1 h
  have hs := hw.sound (hasErrors_validate.1 hreport)
  have htidy := (tidyBy_expander hw hs config).heads hw hs
    (fun id hid => (hw.of_mem_realInputs hid).1) (by simp) g.nodup_realInputs run
  exact ⟨htidy.steps, htidy.parts⟩

/-- A layer that feeds a sum directly and over another layer; the sum feeds two layers, which stay
apart. -/
def spread : Graph :=
  (createAll {} ["LayerDense", "LayerParallelSum", "LayerDense", "LayerDense", "LayerDense"]).connectAll
    [(.output 0, .input 1), (.output 0, .input 2), (.output 2, .input 1), (.output 1, .input 3),
      (.output 1, .input 4)]

theorem edited_spread : spread.Edited := ((Built.new.createAll _).connectAll _).edited

/-- What `spread` compiles to: the group stands for the sum, and its first branch does nothing. -/
def spreadForest : List Layer :=
  [.node ⟨0, "LayerDense", [], []⟩ [] []
    [.parallel .sum (some 1) [.sequence [], .node ⟨2, "LayerDense", [], []⟩ [] [] []],
      .parallel .concat none [.node ⟨3, "LayerDense", [], []⟩ [] [] [],
        .node ⟨4, "LayerDense", [], []⟩ [] [] []]]]

theorem compile_spread : spread.compile {} = .ok spreadForest := by rfl

theorem normalForm_spread : spread.compile {} = .ok spreadForest ∧ NormalForm spreadForest :=
  ⟨compile_spread, edited_spread.normalForm_of_compile compile_spread⟩

/-- Nothing may follow layers that stay apart. -/
example : ¬NormalForm [.parallel .concat none [.node ⟨3, "LayerDense", [], []⟩ [] [] [],
    .node ⟨4, "LayerDense", [], []⟩ [] [] []], .node ⟨5, "LayerDense", [], []⟩ [] [] []] := by decide

end Graph

end LayerNet
