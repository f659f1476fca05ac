import LayerNet.Proofs.Chains
import LayerNet.Proofs.Soundness

/-!
# Rounds of grouping

`Graph.Front` is the invariant of the heads between rounds: every group ends at a merging node, and
no other head reaches this node (`Front.round`).  Therefore no group is asked for its own end, and
its node is placed when the chain goes on from there.

`Grouped.grows` accounts for one round and `Faithful.rounds` for all of them.  Both go backward: that
the ends of the groups are not placed is known once the chains have been read from the last heads.
-/

namespace LayerNet

open Expander Expansion

variable {g : Graph} {config : CompilerConfig} {below : Expander} {s t u : List NodeId}
  {stop : Option NodeId} {pending final groups : List Head} {h k : Head} {id p : NodeId}

/-! ## Places -/

theorem others_congr {places places' : List Nat} (h : ∀ i, i ∈ places ↔ i ∈ places') :
    others pending places = others pending places' := by
  simp only [others, h]

theorem others_sublist (pending : List Head) (places : List Nat) :
    (others pending places).Sublist pending := by
  conv_rhs => rw [← List.zipIdx_map_fst 0 pending]
  exact List.filter_sublist.map _

theorem members_flatMap (pending : List Head) (meetings : List MeetingPoint) :
    members pending (meetings.flatMap MeetingPoint.heads) =
      meetings.flatMap fun c => members pending c.heads := by
  induction meetings with
  | nil => rfl
  | cons c rest ih => rw [List.flatMap_cons, members_append, ih, List.flatMap_cons]

namespace Graph

theorem mem_meeters_heads {i : Nat} : i ∈ g.meeters (pending.map Head.node) stop p ↔
    ∃ h, pending[i]? = some h ∧ g.Leads stop h.node p := by
  rw [mem_meeters]
  simp only [List.getElem?_map, Option.map_eq_some_iff]
  constructor
  · rintro ⟨-, ⟨h, hh, rfl⟩, hpath⟩
    exact ⟨h, hh, hpath⟩
  · rintro ⟨h, hh, hpath⟩
    exact ⟨_, ⟨h, hh, rfl⟩, hpath⟩

/-- A meeting point is reached by its heads, which are two at least, and by no other head. -/
structure Meets (g : Graph) (stop : Option NodeId) (pending : List Head) (c : MeetingPoint) :
    Prop where
  places : ∀ i, i ∈ c.heads ↔ ∃ h, pending[i]? = some h ∧ g.Leads stop h.node c.point
  nodup : c.heads.Nodup
  several : 2 ≤ c.heads.length

theorem meets_of_mem {c : MeetingPoint}
    (hc : c ∈ g.firstMeetings (pending.map Head.node) stop) : g.Meets stop pending c := by
  obtain ⟨hheads, hlen, -⟩ := mem_firstMeetings_iff.1 hc
  refine ⟨fun i => ?_, ?_, hlen⟩
  · rw [hheads, mem_meeters_heads]
  · rw [hheads]
    exact nodup_meeters ..

theorem Meets.leads {c : MeetingPoint} (hc : g.Meets stop pending c)
    (hh : h ∈ members pending c.heads) : g.Leads stop h.node c.point := by
  obtain ⟨i, hi, hget⟩ := mem_members.1 hh
  obtain ⟨h', hget', hpath⟩ := (hc.places i).1 hi
  rw [hget, Option.some.injEq] at hget'
  exact hget' ▸ hpath

theorem Meets.length_members {c : MeetingPoint} (hc : g.Meets stop pending c) :
    (members pending c.heads).length = c.heads.length := by
  have hall : ∀ (places : List Nat), (∀ i ∈ places, i ∈ c.heads) →
      (members pending places).length = places.length := by
    intro places hplaces
    induction places with
    | nil => rfl
    | cons i rest ih =>
      obtain ⟨h, hget, -⟩ := (hc.places i).1 (hplaces i List.mem_cons_self)
      have hcons : members pending (i :: rest) = h :: members pending rest := by
        simp [members, hget]
      rw [hcons, List.length_cons, List.length_cons,
        ih fun j hj => hplaces j (List.mem_cons_of_mem _ hj)]
  exact hall _ fun _ hi => hi

theorem Meets.exists_place {c : MeetingPoint} (hc : g.Meets stop pending c) :
    ∃ i ∈ c.heads, ∃ h, pending[i]? = some h ∧ g.Leads stop h.node c.point := by
  obtain ⟨i, hi⟩ := List.exists_mem_of_length_pos (Nat.lt_of_lt_of_le Nat.zero_lt_two hc.several)
  exact ⟨i, hi, (hc.places i).1 hi⟩

/-! ## The heads between rounds -/

/-- No path that avoids `stop` leads from one head to the end of another one's group. -/
def Apart (g : Graph) (stop : Option NodeId) (h k : Head) : Prop :=
  (h.group.isSome = true → ¬g.Leads stop k.node h.node) ∧
    (k.group.isSome = true → ¬g.Leads stop h.node k.node)

theorem Apart.symm (hhk : g.Apart stop h k) : g.Apart stop k h := ⟨hhk.2, hhk.1⟩

/-- What holds of the heads between rounds. -/
structure Front (g : Graph) (stop : Option NodeId) (pending : List Head) : Prop where
  ready : ∀ h ∈ pending, g.Ready h
  ne_stop : ∀ h ∈ pending, some h.node ≠ stop
  apart : pending.Pairwise (g.Apart stop)

theorem front_of_nodes {heads : List NodeId} (hids : ∀ id ∈ heads, id ∈ g.ids)
    (hstop : ∀ id ∈ heads, some id ≠ stop) :
    g.Front stop (heads.map fun id => ⟨id, none⟩) where
  ready := by
    simp only [List.forall_mem_map]
    exact fun id hid => ⟨hids id hid, by simp⟩
  ne_stop := by simpa only [List.forall_mem_map] using hstop
  apart := by
    rw [List.pairwise_map]
    exact List.pairwise_of_forall fun a b => ⟨fun hsome => by simp at hsome,
      fun hsome => by simp at hsome⟩

theorem Front.perm (hf : g.Front stop pending) (h : pending.Perm final) : g.Front stop final where
  ready k hk := hf.ready k (h.mem_iff.2 hk)
  ne_stop k hk := hf.ne_stop k (h.mem_iff.2 hk)
  apart := (h.pairwise_iff fun hhk => hhk.symm).1 hf.apart

theorem Front.apart_of_ne (hf : g.Front stop pending) {i j : Nat} (hij : i ≠ j)
    (hi : pending[i]? = some h) (hj : pending[j]? = some k) : g.Apart stop h k := by
  obtain ⟨hilt, rfl⟩ := List.getElem?_eq_some_iff.1 hi
  obtain ⟨hjlt, rfl⟩ := List.getElem?_eq_some_iff.1 hj
  have hpair := List.pairwise_iff_getElem.1 hf.apart
  rcases Nat.lt_or_gt_of_ne hij with hlt | hlt
  · exact hpair i j hilt hjlt hlt
  · exact (hpair j i hjlt hilt hlt).symm

/-- No group meets others at its own end. -/
theorem Front.point_ne (hf : g.Front stop pending) {c : MeetingPoint}
    (hc : g.Meets stop pending c) (hh : h ∈ members pending c.heads)
    (hgroup : h.group.isSome = true) : h.node ≠ c.point := by
  obtain ⟨i, hi, hget⟩ := mem_members.1 hh
  -- some other head belongs to the meeting as well
  obtain ⟨j, hj, hne⟩ : ∃ j ∈ c.heads, j ≠ i := by
    by_contra hall
    push Not at hall
    have hsub : c.heads ⊆ [i] := fun j hj => List.mem_singleton.2 (hall j hj)
    have hlen := (hc.nodup.subperm hsub).length_le
    have hseveral := hc.several
    simp only [List.length_singleton] at hlen
    omega
  obtain ⟨k, hk, hpath⟩ := (hc.places j).1 hj
  intro he
  rw [← he] at hpath
  exact (hf.apart_of_ne hne.symm hget hk).1 hgroup hpath

/-! ## The groups of a round -/

theorem arrivals_le (g : Graph) (p : NodeId) : g.arrivals p ≤ (g.peers (.input p)).length := by
  have hpred : (g.predecessors p).length ≤
      ((g.peers (.input p)).filter fun q => !q.slot.isAux).length := by
    have hsub := (eraseDups_sublist
      (((g.peers (.input p)).filter fun q => q.slot = .output).map PortRef.node)).length_le
    rw [List.length_map] at hsub
    refine hsub.trans (List.Sublist.length_le (List.monotone_filter_right _ fun q hq => ?_))
    simp only [decide_eq_true_eq] at hq
    simp [hq, Slot.isAux]
  have haux : (if (g.peers (.input p)).any (fun q => q.slot.isAux) then 1 else 0) ≤
      ((g.peers (.input p)).filter fun q => q.slot.isAux).length := by
    split
    · rename_i h
      obtain ⟨q, hq, hslot⟩ := List.any_eq_true.1 h
      exact List.length_pos_of_mem (List.mem_filter.2 ⟨hq, hslot⟩)
    · exact Nat.zero_le _
  have hsplit := (List.filter_append_perm (fun q : PortRef => q.slot.isAux)
    (g.peers (.input p))).length_eq
  rw [List.length_append] at hsplit
  unfold arrivals
  omega

/-- A point at which several branches arrive merges them. -/
theorem Sound.merging (h : g.Sound) (hp : p ∈ g.ids) (harrive : 2 ≤ g.arrivals p) :
    g.Merging p := by
  obtain ⟨n, hn⟩ := exists_node? hp
  exact ⟨n, hn, h.merges hn (harrive.trans (g.arrivals_le p))⟩

theorem Merging.groupAt (hp : g.Merging p) (config : CompilerConfig) (branches : List Layer) :
    ∃ r, g.groupAt config p branches = .parallel r (some p) branches := by
  obtain ⟨n, hn, hmerge⟩ := hp
  rw [Graph.groupAt, hn, Option.any_some, if_pos hmerge]
  exact ⟨_, rfl⟩

end Graph

namespace Expander.Grouped

open LayerNet.Graph

variable {meetings : List MeetingPoint}

/-- The groups stand at the meeting points. -/
theorem nodes (hg : Grouped g config below pending meetings s groups u) :
    groups.map Head.node = meetings.map MeetingPoint.point := by
  induction hg with
  | nil => rfl
  | cons _ _ _ ih => rw [List.map_cons, List.map_cons, ih]

/-- Every group is formed from chains that are as many as the branches that have to arrive. -/
theorem exists_chains (hg : Grouped g config below pending meetings s groups u) (hk : k ∈ groups) :
    ∃ c ∈ meetings, ∃ chains : List (List Layer), chains.length = (members pending c.heads).length ∧
      chains.length = g.arrivals c.point ∧
      k = ⟨c.point, some (g.groupAt config c.point (chains.map asBranch))⟩ := by
  induction hg with
  | nil => exact absurd hk List.not_mem_nil
  | cons hchains hlen _ ih =>
    rcases List.mem_cons.1 hk with rfl | hk
    · exact ⟨_, List.mem_cons_self, _, length_of_gives_mapM hchains, hlen, rfl⟩
    · obtain ⟨c, hc, h⟩ := ih hk
      exact ⟨c, List.mem_cons_of_mem _ hc, h⟩

end Expander.Grouped

namespace Graph

variable {meetings : List MeetingPoint}

/-- Two points that share no head do not lead to each other. -/
theorem Meets.not_leads {c d : MeetingPoint} (hc : g.Meets stop pending c)
    (hd : g.Meets stop pending d) (hapart : ∀ i ∈ d.heads, i ∉ c.heads) :
    ¬g.Leads stop c.point d.point ∧ ¬g.Leads stop d.point c.point := by
  obtain ⟨i, hi, h, hh, hpath⟩ := hc.exists_place
  obtain ⟨j, hj, k, hk, hpath'⟩ := hd.exists_place
  refine ⟨fun hcd => ?_, fun hdc => ?_⟩
  · exact hapart i ((hd.places i).2 ⟨h, hh, hpath.trans hcd⟩) hi
  · exact hapart j hj ((hc.places j).2 ⟨k, hk, hpath'.trans hdc⟩)

/-- The groups of a round with the heads that belong to none form a front again. -/
theorem Front.round (hf : g.Front stop pending) (hw : g.WellFormed) (hs : g.Sound)
    (hmeet : ∀ c ∈ meetings, g.Meets stop pending c)
    (hapart : meetings.Pairwise fun c d => ∀ i ∈ d.heads, i ∉ c.heads)
    (hg : Grouped g config below pending meetings s groups u) :
    g.Front stop (groups ++ others pending (meetings.flatMap MeetingPoint.heads)) := by
  have hothers := others_sublist pending (meetings.flatMap MeetingPoint.heads)
  constructor
  case ready =>
    intro k hk
    rcases List.mem_append.1 hk with hk | hk
    · obtain ⟨c, hc, chains, hlen, harrive, rfl⟩ := hg.exists_chains hk
      obtain ⟨i, -, h, hh, hpath⟩ := (hmeet c hc).exists_place
      have hpoint := hw.leads_mem_ids hpath (hf.ready h (List.mem_of_getElem? hh)).mem
      have hseveral : 2 ≤ g.arrivals c.point := by
        rw [← harrive, hlen, (hmeet c hc).length_members]
        exact (hmeet c hc).several
      have hmerging := hs.merging hpoint hseveral
      refine ⟨hpoint, fun group hgroup => ⟨hmerging, ?_⟩⟩
      obtain ⟨r, hr⟩ := hmerging.groupAt config (chains.map asBranch)
      exact ⟨r, _, (Option.some.inj hgroup).symm.trans hr⟩
    · exact hf.ready k (hothers.mem hk)
  case ne_stop =>
    intro k hk
    rcases List.mem_append.1 hk with hk | hk
    · obtain ⟨c, hc, chains, -, -, rfl⟩ := hg.exists_chains hk
      obtain ⟨i, -, h, -, hpath⟩ := (hmeet c hc).exists_place
      exact hpath.ne_stop
    · exact hf.ne_stop k (hothers.mem hk)
  case apart =>
    rw [List.pairwise_append]
    refine ⟨?_, hf.apart.sublist hothers, fun k hk h hh => ?_⟩
    · have hpoints : (groups.map Head.node).Pairwise fun p q =>
          ¬g.Leads stop p q ∧ ¬g.Leads stop q p := by
        rw [hg.nodes, List.pairwise_map]
        exact hapart.imp_of_mem fun hc hd hcd => (hmeet _ hc).not_leads (hmeet _ hd) hcd
      exact (List.pairwise_map.1 hpoints).imp fun hkk' => ⟨fun _ => hkk'.2, fun _ => hkk'.1⟩
    · obtain ⟨c, hc, chains, -, -, rfl⟩ := hg.exists_chains hk
      obtain ⟨j, hj, hget⟩ := mem_others.1 hh
      have hjc : j ∉ c.heads := fun hjc => hj (List.mem_flatMap.2 ⟨c, hc, hjc⟩)
      refine ⟨fun _ hpath => hjc (((hmeet c hc).places j).2 ⟨h, hget, hpath⟩), fun hgroup hpath => ?_⟩
      -- a head of the meeting would reach the old group through the new one
      obtain ⟨i, hi, h', hget', hpath'⟩ := (hmeet c hc).exists_place
      have hij : j ≠ i := fun e => hjc (e ▸ hi)
      exact (hf.apart_of_ne hij hget hget').1 hgroup (hpath'.trans hpath)

/-! ## Accounting for a round -/

/-- The branches of a group are tallied as the chains that they are made of. -/
theorem Grows.group {roots fresh : List NodeId} {xs : List Tally} {chains : List (List Layer)}
    (h : g.Grows roots xs fresh s (chains.map (.ofChain (some p))) t) (hp : g.Merging p) :
    g.Grows roots xs fresh s
      [Head.tally ⟨p, some (g.groupAt config p (chains.map asBranch))⟩] t := by
  obtain ⟨r, hr⟩ := hp.groupAt config (chains.map asBranch)
  have htally : Head.tally ⟨p, some (g.groupAt config p (chains.map asBranch))⟩ =
      .ofBranches (some p) (chains.map asBranch) := by
    rw [hr]
    rfl
  rw [htally]
  constructor
  · simpa [Tally.ofBranches, Tally.ofChain, List.flatMap_map] using h.outer
  · intro source
    simpa [Tally.ofBranches, Tally.ofChain, List.flatMap_map] using h.edges source
  · exact h.reached
  · simpa [Tally.ofBranches, Tally.ofChain, List.flatMap_map] using h.placed
  · simpa [Tally.ofBranches, Tally.ofChain, List.flatMap_map] using h.settled

/-- One round accounts for the heads that it takes, if the ends of the groups are not placed. -/
theorem Faithful.grouped (hb : g.Faithful below) (hf : g.Front stop pending)
    (hmeet : ∀ c ∈ meetings, g.Meets stop pending c) (hmerging : ∀ k ∈ groups, g.Merging k.node)
    (hfree : ∀ k ∈ groups, k.node ∉ u)
    (hg : Grouped g config below pending meetings s groups u) :
    (∀ h ∈ meetings.flatMap fun c => members pending c.heads, h.group.isSome = true → h.node ∉ s) ∧
      ∃ fresh, g.Grows ((meetings.flatMap fun c => members pending c.heads).map Head.node)
        ((meetings.flatMap fun c => members pending c.heads).map Head.tally) fresh s
        (groups.map Head.tally) u := by
  induction hg with
  | nil s => exact ⟨by simp, [], g.grows_refl [] [] s⟩
  | @cons c chains rest groups s t u hchains hlen hrest ih =>
    rw [List.forall_mem_cons] at hmeet hmerging hfree
    obtain ⟨hnotin, more, hmore⟩ := ih hmeet.2 hmerging.2 hfree.2
    have hready : ∀ h ∈ members pending c.heads, g.Ready h := by
      intro h hh
      obtain ⟨i, -, hget⟩ := mem_members.1 hh
      exact hf.ready h (List.mem_of_getElem? hget)
    have hne : ∀ h ∈ members pending c.heads, h.group.isSome = true →
        some h.node ≠ some c.point := fun h hh hgroup he =>
      hf.point_ne hmeet.1 hh hgroup (Option.some.inj he)
    obtain ⟨fresh, hgrows⟩ := hb.joins hready hne (fun p hp => by
      rw [Option.some.injEq] at hp
      subst hp
      exact ⟨fun ht => hfree.1 (hmore.mono ht), fun h hh => (hmeet.1.leads hh).weaken⟩) hchains
    refine ⟨fun h hh hgroup => ?_, fresh ++ more, ?_⟩
    · rcases List.mem_append.1 hh with hh | hh
      · exact (hb.untouched hready hne hchains).1 h hh (hne h hh hgroup)
      · exact fun hs => hnotin h hh hgroup (hgrows.mono hs)
    · rw [List.flatMap_cons, List.map_append, List.map_append]
      exact (hgrows.group hmerging.1).append hmore

/-- A round as a whole: its groups take the places of heads. -/
theorem groupsAt_round {placed : List (Nat × Head)} {marks : List Nat}
    (run : (below.groupsAt g config pending (g.firstMeetings (pending.map Head.node) stop) []).Gives s
      (placed, marks) t) :
    let meetings := g.firstMeetings (pending.map Head.node) stop
    (meetings.Pairwise fun c d => ∀ i ∈ d.heads, i ∉ c.heads) ∧
      Grouped g config below pending meetings s (placed.map Prod.snd) t ∧
      (regroup pending placed marks).Perm
        (placed.map Prod.snd ++ others pending (meetings.flatMap MeetingPoint.heads)) ∧
      pending.Perm ((meetings.flatMap fun c => members pending c.heads) ++
        others pending (meetings.flatMap MeetingPoint.heads)) := by
  intro meetings
  obtain ⟨hapart, -, hmarks, hplaces, hgrouped⟩ := gives_groupsAt_iff.1 run
  have hmeet : ∀ c ∈ meetings, g.Meets stop pending c := fun c hc => meets_of_mem hc
  have hothers : others pending marks = others pending (meetings.flatMap MeetingPoint.heads) := by
    refine others_congr ?_
    intro i
    rw [hmarks]
    simp [meetings, List.mem_flatMap]
  have hnodup : (meetings.flatMap MeetingPoint.heads).Nodup := by
    refine List.nodup_flatMap.2 ⟨fun c hc => (hmeet c hc).nodup, hapart.imp fun h i hi hj => ?_⟩
    exact h i hj hi
  refine ⟨hapart, hgrouped, ?_, ?_⟩
  · rw [← hothers]
    refine regroup_perm marks ?_
    intro group hgroup
    have hfirst : group.1 ∈ meetings.map fun c => c.heads.headD 0 :=
      hplaces ▸ List.mem_map_of_mem hgroup
    obtain ⟨c, hc, he⟩ := List.mem_map.1 hfirst
    obtain ⟨i, hi, -⟩ := (hmeet c hc).exists_place
    have hmem : group.1 ∈ c.heads := by
      rw [← he]
      cases hheads : c.heads with
      | nil => simp [hheads] at hi
      | cons j rest => exact List.mem_cons_self
    obtain ⟨h, hget, -⟩ := ((hmeet c hc).places _).1 hmem
    exact (List.getElem?_eq_some_iff.1 hget).1
  · rw [← members_flatMap]
    exact (members_append_others_perm hnodup).symm

/-- All rounds account for the heads, if the ends of the last groups are not placed. -/
theorem Faithful.rounds {fuel : Nat} (hb : g.Faithful below) (hw : g.WellFormed) (hs : g.Sound)
    (hf : g.Front stop pending)
    (run : (below.rounds g config stop fuel pending).Gives s final u) :
    g.Front stop final ∧ (∀ k ∈ final, ∃ h ∈ pending, g.Leads none h.node k.node) ∧
      ((∀ k ∈ final, k.group.isSome = true → k.node ∉ u) →
        (∀ h ∈ pending, h.group.isSome = true → h.node ∉ s) ∧
          ∃ fresh, g.Grows (pending.map Head.node) (pending.map Head.tally) fresh s
            (final.map Head.tally) u) := by
  have hdone : ∀ {pending : List Head} {s : List NodeId}, g.Front stop pending →
      g.Front stop pending ∧ (∀ k ∈ pending, ∃ h ∈ pending, g.Leads none h.node k.node) ∧
        ((∀ k ∈ pending, k.group.isSome = true → k.node ∉ s) →
          (∀ h ∈ pending, h.group.isSome = true → h.node ∉ s) ∧
            ∃ fresh, g.Grows (pending.map Head.node) (pending.map Head.tally) fresh s
              (pending.map Head.tally) s) := fun hf =>
    ⟨hf, fun k hk => ⟨k, hk, .refl (Option.some_ne_none _)⟩,
      fun hfree => ⟨hfree, [], g.grows_refl _ _ _⟩⟩
  induction fuel generalizing pending s with
  | zero =>
    obtain ⟨rfl, rfl⟩ := gives_rounds_zero_iff.1 run
    exact hdone hf
  | succ fuel ih =>
    rcases gives_rounds_succ_iff.1 run with ⟨-, rfl, rfl⟩ | ⟨-, placed, marks, t, hround, hmore⟩
    · exact hdone hf
    obtain ⟨hapart, hgrouped, hregroup, hsplit⟩ := groupsAt_round hround
    have hmeet : ∀ c ∈ g.firstMeetings (pending.map Head.node) stop, g.Meets stop pending c :=
      fun c hc => meets_of_mem hc
    have hf' := (hf.round hw hs hmeet hapart hgrouped).perm hregroup.symm
    obtain ⟨hfront, hleads, hgrows⟩ := ih hf' hmore
    have hback : ∀ k ∈ regroup pending placed marks, ∃ h ∈ pending, g.Leads none h.node k.node := by
      intro k hk
      rcases List.mem_append.1 (hregroup.mem_iff.1 hk) with hk | hk
      · obtain ⟨c, hc, chains, -, -, rfl⟩ := hgrouped.exists_chains hk
        obtain ⟨i, -, h, hget, hpath⟩ := (hmeet c hc).exists_place
        exact ⟨h, List.mem_of_getElem? hget, hpath.weaken⟩
      · exact ⟨k, (others_sublist ..).mem hk, .refl (Option.some_ne_none _)⟩
    refine ⟨hfront, fun k hk => ?_, fun hfree => ?_⟩
    · obtain ⟨h', hh', hpath'⟩ := hleads k hk
      obtain ⟨h, hh, hpath⟩ := hback h' hh'
      exact ⟨h, hh, hpath.trans hpath'⟩
    obtain ⟨hunplaced, more, hmore⟩ := hgrows hfree
    have hgroup : ∀ k ∈ placed.map Prod.snd, k.group.isSome = true ∧
        k ∈ regroup pending placed marks := by
      intro k hk
      refine ⟨?_, hregroup.mem_iff.2 (List.mem_append_left _ hk)⟩
      obtain ⟨c, -, chains, -, -, rfl⟩ := hgrouped.exists_chains hk
      rfl
    obtain ⟨htaken, fresh, hone⟩ := hb.grouped hf hmeet
      (fun k hk => by
        obtain ⟨group, he⟩ := Option.isSome_iff_exists.1 (hgroup k hk).1
        exact ((hf'.ready k (hgroup k hk).2).group group he).1)
      (fun k hk => hunplaced k (hgroup k hk).2 (hgroup k hk).1) hgrouped
    refine ⟨fun h hh hsome => ?_, fresh ++ more, ?_⟩
    · rcases List.mem_append.1 (hsplit.mem_iff.1 hh) with hh | hh
      · exact htaken h hh hsome
      · exact fun hs => hunplaced h (hregroup.mem_iff.2 (List.mem_append_right _ hh)) hsome
          (hone.mono hs)
    · have hrest := g.grows_refl
        ((others pending ((g.firstMeetings (pending.map Head.node) stop).flatMap
          MeetingPoint.heads)).map Head.node)
        ((others pending ((g.firstMeetings (pending.map Head.node) stop).flatMap
          MeetingPoint.heads)).map Head.tally) t
      have hall := hone.append hrest
      rw [List.append_nil, ← List.map_append, ← List.map_append, ← List.map_append] at hall
      have hstep := hall.of_perm (hsplit.symm.map Head.tally) (hregroup.symm.map Head.tally)
      refine (hstep.from_roots fun r hr => ⟨r, ?_, .refl (Option.some_ne_none _)⟩).trans
        (hmore.from_roots fun r hr => ?_)
      · exact (hsplit.map Head.node).mem_iff.2 hr
      · obtain ⟨k, hk, rfl⟩ := List.mem_map.1 hr
        obtain ⟨h, hh, hpath⟩ := hback k hk
        exact ⟨h.node, List.mem_map_of_mem hh, hpath⟩

/-! ## Heads that converge -/

/-- The chains that several heads converge to, none of them empty.  They account for the heads if
they end nowhere or there is one only. -/
theorem Faithful.converge {heads : List NodeId} {chains : List (List Layer)} (hb : g.Faithful below)
    (hw : g.WellFormed) (hs : g.Sound) (hids : ∀ id ∈ heads, id ∈ g.ids)
    (hstop : ∀ id ∈ heads, some id ≠ stop)
    (run : (below.converge g config heads stop).Gives s chains u) :
    (∀ chain ∈ chains, chain ≠ []) ∧ (stop = none ∨ chains.length ≤ 1 →
      ∃ exit fresh, (exit = none ∨ exit = stop) ∧
        g.Grows heads (heads.map fun id => Head.tally ⟨id, none⟩) fresh s
          (chains.map (.ofChain exit)) u) := by
  obtain ⟨final, t, hrounds, hchains⟩ := gives_converge_iff.1 run
  obtain ⟨hfront, hleads, hgrows⟩ := hb.rounds hw hs (front_of_nodes hids hstop) hrounds
  have hne : ∀ h ∈ final, h.group.isSome = true → some h.node ≠ stop :=
    fun h hh _ => hfront.ne_stop h hh
  obtain ⟨hnotin, hlayers⟩ := hb.untouched hfront.ready hne hchains
  refine ⟨hlayers hfront.ne_stop, fun hshape => ?_⟩
  obtain ⟨-, fresh, hbefore⟩ := hgrows fun k hk _ => hnotin k hk (hfront.ne_stop k hk)
  have hnodes : (heads.map fun id => (⟨id, none⟩ : Head)).map Head.node = heads := by
    rw [List.map_map]
    exact List.map_id heads
  rw [hnodes, List.map_map] at hbefore
  have hafter : ∃ exit more, (exit = none ∨ exit = stop) ∧
      g.Grows (final.map Head.node) (final.map Head.tally) more t (chains.map (.ofChain exit)) u := by
    rcases hshape with rfl | hlen
    · obtain ⟨more, hmore⟩ := hb.joins hfront.ready hne (by simp) hchains
      exact ⟨none, more, Or.inl rfl, hmore⟩
    · rw [length_of_gives_mapM hchains] at hlen
      match final, hlen with
      | [], _ =>
        obtain ⟨rfl, rfl⟩ := gives_mapM_nil_iff.1 hchains
        exact ⟨none, [], Or.inl rfl, g.grows_refl [] [] u⟩
      | [h], _ =>
        obtain ⟨layers, r, rest, hone, hrest, rfl⟩ := gives_mapM_cons_iff.1 hchains
        obtain ⟨rfl, rfl⟩ := gives_mapM_nil_iff.1 hrest
        have hmem := List.mem_singleton_self h
        obtain ⟨-, exit, more, hexit, hmore, -⟩ :=
          hb.chain (hfront.ready h hmem) (hne h hmem) hone
        exact ⟨exit, more, hexit, hmore⟩
  obtain ⟨exit, more, hexit, hmore⟩ := hafter
  refine ⟨exit, fresh ++ more, hexit, hbefore.trans (hmore.from_roots fun r hr => ?_)⟩
  obtain ⟨k, hk, rfl⟩ := List.mem_map.1 hr
  obtain ⟨h, hh, hpath⟩ := hleads k hk
  obtain ⟨id, hid, rfl⟩ := List.mem_map.1 hh
  exact ⟨id, hid, hpath⟩

end Graph

end LayerNet
