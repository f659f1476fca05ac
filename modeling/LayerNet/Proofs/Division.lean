import LayerNet.Proofs.Rounds

/-!
# Rounds of grouping without an order

A round of grouping speaks of heads by their places, finds the meeting points one after the other and
forms their groups in this order.  Told without places and without an order, it does this: each
meeting point takes the heads that reach it (`Graph.arriving`), which may not reach another one
(`Graph.Divided`), and puts their group in their place (`Expander.meetAt`); the heads that reach no
meeting point stay (`Graph.apartFrom`).

* `mem_meetingPoints_iff` — what a meeting point is;
* `Expander.gives_round`, `Expander.exists_round` — a round succeeds exactly if the heads are divided
  among the meeting points and all groups succeed, and it leaves the groups and the other heads, in
  some order.
-/

namespace LayerNet

open Expansion Expander

variable {g : Graph} {config : CompilerConfig} {below : Expander} {stop : Option NodeId}
  {pending next groups : List Head} {heads s t : List NodeId} {p : NodeId}

/-! ## Meeting points and heads -/

namespace Graph

/-- The heads that reach a node. -/
def arriving (g : Graph) (stop : Option NodeId) (pending : List Head) (p : NodeId) : List Head :=
  pending.filter fun h => p ∈ g.reachableFrom h.node stop

/-- The nodes at which heads meet first. -/
def meetingPoints (g : Graph) (stop : Option NodeId) (heads : List NodeId) : List NodeId :=
  (g.firstMeetings heads stop).map MeetingPoint.point

/-- The heads that reach no meeting point. -/
def apartFrom (g : Graph) (stop : Option NodeId) (pending : List Head) : List Head :=
  pending.filter fun h =>
    ∀ p ∈ g.meetingPoints stop (pending.map Head.node), p ∉ g.reachableFrom h.node stop

/-- No head reaches two meeting points. -/
def Divided (g : Graph) (stop : Option NodeId) (heads : List NodeId) : Prop :=
  (g.meetingPoints stop heads).Pairwise fun p q =>
    ∀ head ∈ heads, p ∈ g.reachableFrom head stop → q ∉ g.reachableFrom head stop

/-- A meeting point is reached by two heads, and none of the heads that reach it meets another one
before. -/
theorem mem_meetingPoints_iff :
    p ∈ g.meetingPoints stop heads ↔
      2 ≤ (heads.filter fun head => p ∈ g.reachableFrom head stop).length ∧
      ∀ other, other ≠ p →
        2 ≤ (heads.filter fun head => other ∈ g.reachableFrom head stop).length →
        (∃ head ∈ heads, p ∈ g.reachableFrom head stop ∧ other ∈ g.reachableFrom head stop) →
          p ∉ g.reachableFrom other stop := by
  have hshare : ∀ other, (∃ i ∈ g.meeters heads stop p, i ∈ g.meeters heads stop other) ↔
      ∃ head ∈ heads, p ∈ g.reachableFrom head stop ∧ other ∈ g.reachableFrom head stop := by
    intro other
    simp only [mem_meeters, mem_reachableFrom]
    constructor
    · rintro ⟨i, ⟨head, hget, hp⟩, head', hget', hother⟩
      obtain rfl : head = head' := Option.some.inj (hget.symm.trans hget')
      exact ⟨head, List.mem_of_getElem? hget, hp, hother⟩
    · rintro ⟨head, hhead, hp, hother⟩
      obtain ⟨i, hget⟩ := List.mem_iff_getElem?.1 hhead
      exact ⟨i, ⟨head, hget, hp⟩, head, hget, hother⟩
  rw [meetingPoints, List.mem_map]
  constructor
  · rintro ⟨c, hc, rfl⟩
    obtain ⟨hheads, hlen, hfirst⟩ := mem_firstMeetings_iff.1 hc
    rw [hheads, length_meeters] at hlen
    refine ⟨hlen, fun other hne hother hmeet hleads => ?_⟩
    rw [← length_meeters] at hother
    rw [← hshare, ← hheads] at hmeet
    exact hfirst other hne hother hmeet (mem_reachableFrom.1 hleads)
  · rintro ⟨hlen, hfirst⟩
    rw [← length_meeters] at hlen
    refine ⟨⟨p, g.meeters heads stop p⟩, mem_firstMeetings_iff.2 ⟨rfl, hlen, ?_⟩, rfl⟩
    intro other hne hother hmeet hleads
    rw [length_meeters] at hother
    exact hfirst other hne hother ((hshare other).1 hmeet) (mem_reachableFrom.2 hleads)

theorem members_eq_arriving {c : MeetingPoint}
    (hc : c ∈ g.firstMeetings (pending.map Head.node) stop) :
    members pending c.heads = g.arriving stop pending c.point := by
  rw [(mem_firstMeetings_iff.1 hc).1, members_meeters]
  rfl

theorem divided_iff : g.Divided stop heads ↔
    (g.firstMeetings heads stop).Pairwise fun c d => ∀ i ∈ d.heads, i ∉ c.heads := by
  rw [Divided, meetingPoints, List.pairwise_map]
  refine List.Pairwise.iff_of_mem fun {c d} hc hd => ?_
  rw [(mem_firstMeetings_iff.1 hc).1, (mem_firstMeetings_iff.1 hd).1]
  simp only [mem_meeters, mem_reachableFrom]
  constructor
  · rintro h i ⟨head, hget, hd⟩ ⟨head', hget', hc⟩
    obtain rfl : head = head' := Option.some.inj (hget.symm.trans hget')
    exact h head (List.mem_of_getElem? hget) hc hd
  · intro h head hhead hc hd
    obtain ⟨i, hget⟩ := List.mem_iff_getElem?.1 hhead
    exact h i ⟨head, hget, hd⟩ ⟨head, hget, hc⟩

/-- The heads that belong to no meeting. -/
theorem others_eq_apartFrom (g : Graph) (stop : Option NodeId) (pending : List Head) :
    others pending ((g.firstMeetings (pending.map Head.node) stop).flatMap MeetingPoint.heads) =
      g.apartFrom stop pending := by
  have hplaces : ∀ f : Head → Bool,
      (pending.zipIdx.filter fun r => f r.1).map Prod.fst = pending.filter f := by
    intro f
    conv_rhs => rw [← List.zipIdx_map_fst 0 pending, List.filter_map]
    rfl
  rw [others, apartFrom, ← hplaces]
  refine congrArg _ (List.filter_congr fun r hr => ?_)
  have hget := List.mem_zipIdx_iff_getElem?.1 hr
  rw [decide_eq_decide, List.mem_flatMap, meetingPoints]
  simp only [List.mem_map, forall_exists_index, and_imp, forall_apply_eq_imp_iff₂, not_exists,
    not_and]
  refine forall₂_congr fun c hc => not_congr ?_
  rw [(mem_firstMeetings_iff.1 hc).1, mem_meeters_heads, mem_reachableFrom]
  constructor
  · rintro ⟨h, hget', hpath⟩
    obtain rfl : r.1 = h := Option.some.inj (hget.symm.trans hget')
    exact hpath
  · exact fun hpath => ⟨r.1, hget, hpath⟩

end Graph

/-! ## One round -/

namespace Expander

/-- The group of the heads that meet at a node, as a head in their place. -/
def meetAt (below : Expander) (g : Graph) (config : CompilerConfig) (stop : Option NodeId)
    (pending : List Head) (p : NodeId) : Expansion Head := do
  let chains ← (g.arriving stop pending p).mapM fun h => below.chain h (some p)
  let group ← parallelGroup g config p (chains.map asBranch)
  return ⟨p, some group⟩

/-- One round of grouping. -/
def round (below : Expander) (g : Graph) (config : CompilerConfig) (stop : Option NodeId)
    (pending : List Head) : Expansion (List Head) := do
  let (groups, taken) ← below.groupsAt g config pending
    (g.firstMeetings (pending.map Head.node) stop) []
  return regroup pending groups taken

theorem rounds_succ (below : Expander) (g : Graph) (config : CompilerConfig)
    (stop : Option NodeId) (more : Nat) (pending : List Head) :
    below.rounds g config stop (more + 1) pending =
      if g.meetingPoints stop (pending.map Head.node) = [] then pure pending
      else below.round g config stop pending >>= below.rounds g config stop more := by
  rw [rounds, round, Graph.meetingPoints]
  cases g.firstMeetings (pending.map Head.node) stop with
  | nil => rfl
  | cons c rest => simp

theorem gives_meetAt_iff {k : Head} : (below.meetAt g config stop pending p).Gives s k t ↔
    ∃ chains, ((g.arriving stop pending p).mapM fun h => below.chain h (some p)).Gives s chains t ∧
      chains.length = g.arrivals p ∧
        k = ⟨p, some (g.groupAt config p (chains.map asBranch))⟩ := by
  simp only [meetAt, gives_bind_iff, gives_parallelGroup_iff, gives_pure_iff, List.length_map]
  constructor
  · rintro ⟨chains, _, hchains, _, _, ⟨hlen, rfl, rfl⟩, rfl, rfl⟩
    exact ⟨chains, hchains, hlen, rfl⟩
  · rintro ⟨chains, hchains, hlen, rfl⟩
    exact ⟨chains, t, hchains, _, t, ⟨hlen, rfl, rfl⟩, rfl, rfl⟩

/-- The groups of some meetings are formed point by point. -/
theorem grouped_iff {meetings : List MeetingPoint}
    (hmeetings : ∀ c ∈ meetings, c ∈ g.firstMeetings (pending.map Head.node) stop) :
    Grouped g config below pending meetings s groups t ↔
      ((meetings.map MeetingPoint.point).mapM (below.meetAt g config stop pending)).Gives
        s groups t := by
  induction meetings generalizing s groups with
  | nil =>
    rw [List.map_nil, gives_mapM_nil_iff]
    constructor
    · intro h
      cases h
      exact ⟨rfl, rfl⟩
    · rintro ⟨rfl, rfl⟩
      exact .nil t
  | cons c rest ih =>
    rw [List.forall_mem_cons] at hmeetings
    have hmembers := Graph.members_eq_arriving hmeetings.1
    rw [List.map_cons, gives_mapM_cons_iff]
    constructor
    · intro h
      cases h with
      | cons hchains hlen hrest =>
        rw [hmembers] at hchains
        exact ⟨_, _, _, gives_meetAt_iff.2 ⟨_, hchains, hlen, rfl⟩, (ih hmeetings.2).1 hrest, rfl⟩
    · rintro ⟨k, r, rest, hk, hrest, rfl⟩
      obtain ⟨chains, hchains, hlen, rfl⟩ := gives_meetAt_iff.1 hk
      rw [← hmembers] at hchains
      exact .cons hchains hlen ((ih hmeetings.2).2 hrest)

/-- What a round leaves: the groups at the meeting points and the heads that reach none. -/
theorem gives_round (run : (below.round g config stop pending).Gives s next t) :
    g.Divided stop (pending.map Head.node) ∧ ∃ groups,
      ((g.meetingPoints stop (pending.map Head.node)).mapM
        (below.meetAt g config stop pending)).Gives s groups t ∧
        next.Perm (groups ++ g.apartFrom stop pending) := by
  obtain ⟨⟨placed, marks⟩, u, hround, hnext⟩ := gives_bind_iff.1 run
  obtain ⟨rfl, rfl⟩ := gives_pure_iff.1 hnext
  obtain ⟨hapart, hgrouped, hregroup, -⟩ := Graph.groupsAt_round hround
  rw [Graph.others_eq_apartFrom] at hregroup
  exact ⟨Graph.divided_iff.2 hapart, placed.map Prod.snd,
    (grouped_iff fun _ hc => hc).1 hgrouped, hregroup⟩

/-- A round succeeds if no head reaches two meeting points and the group at each point succeeds. -/
theorem exists_round (hdivided : g.Divided stop (pending.map Head.node))
    (run : ((g.meetingPoints stop (pending.map Head.node)).mapM
      (below.meetAt g config stop pending)).Gives s groups t) :
    ∃ next, (below.round g config stop pending).Gives s next t ∧
      next.Perm (groups ++ g.apartFrom stop pending) := by
  let meetings := g.firstMeetings (pending.map Head.node) stop
  let places := meetings.map fun c => c.heads.headD 0
  have hlength : places.length = groups.length := by
    rw [length_of_gives_mapM run, Graph.meetingPoints, List.length_map, List.length_map]
  have hround : (below.groupsAt g config pending meetings []).Gives s
      (places.zip groups, (meetings.map MeetingPoint.heads).reverse.flatten ++ []) t := by
    refine gives_groupsAt_iff.2 ⟨Graph.divided_iff.1 hdivided, fun _ _ _ _ => List.not_mem_nil, rfl,
      List.map_fst_zip hlength.le, ?_⟩
    rw [List.map_snd_zip hlength.ge]
    exact (grouped_iff fun _ hc => hc).2 run
  obtain ⟨-, -, hregroup, -⟩ := Graph.groupsAt_round hround
  rw [Graph.others_eq_apartFrom, List.map_snd_zip hlength.ge] at hregroup
  exact ⟨_, gives_bind_iff.2 ⟨_, t, hround, gives_pure_iff.2 ⟨rfl, rfl⟩⟩, hregroup⟩

end Expander

end LayerNet
