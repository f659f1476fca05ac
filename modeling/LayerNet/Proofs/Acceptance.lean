import LayerNet.Proofs.Contraction
import LayerNet.Proofs.Rounds

/-!
# Terms are accepted

The expansion of a term succeeds.  `Handles g below k` says that an expander succeeds on all terms
with at most `k` nodes that begin with a node, and `handles_levels` builds the levels up.

Several heads converge in rounds.  `Opens` is the invariant: between two rounds, the heads are the
entries of a term, and the heads with groups are the nodes that count as grouped.  A round finds the
bundles of the term and forms their groups (`Handles.round`); the rounds end when the term begins
with no group (`Handles.rounds`).
-/

namespace LayerNet

/-- An expansion that succeeds and places none but the given ids. -/
def Expansion.Passes {α : Type} (x : Expansion α) (s ids : List NodeId) : Prop :=
  ∃ a t, x.Gives s a t ∧ ∀ y ∈ t, y ∈ s ∨ y ∈ ids

namespace Term

open Expander Expansion

variable {g : Graph} {config : CompilerConfig} {below : Expander} {k : Nat}
  {s grouped starts : List NodeId} {next stop : Option NodeId} {t rest b : Term} {bs : List Term}
  {pending l : List Head} {h : Head} {id : NodeId}

/-- A small term whose nodes are not placed. -/
structure Fresh (k : Nat) (next : Option NodeId) (s : List NodeId) (t : Term) : Prop where
  distinct : Distinct next t
  small : t.ids.length ≤ k
  free : ∀ x ∈ t.ids, x ∉ s

/-- The contract of an expander: it stops at `stop`, and it succeeds on small terms. -/
structure Handles (g : Graph) (below : Expander) (k : Nat) : Prop where
  node_stop : ∀ id s, (below.node id (some id)).Gives s [] s
  afterGroup_stop : ∀ id s, (below.afterGroup id (some id)).Gives s [] s
  node : ∀ {id rest next s}, Laid g [] next (.node id rest) → Fresh k next s (.node id rest) →
    (below.node id next).Passes s (Term.node id rest).ids
  afterGroup : ∀ {id rest next s}, g.Merging id → Laid g [id] next (.node id rest) →
    Fresh k next s (.node id rest) → (below.afterGroup id next).Passes s (Term.node id rest).ids

/-! ## Chains -/

/-- A head from which a term leads on that begins with no group. -/
structure Stands (g : Graph) (k : Nat) (stop : Option NodeId) (grouped : List NodeId) (h : Head)
    (b : Term) : Prop where
  leaf : b.isLeaf = true
  laid : Laid g grouped stop b
  distinct : Distinct stop b
  small : b.ids.length ≤ k
  entry : b.entries stop = [h.node]
  plain : h.group = none → h.node ∉ grouped
  merging : h.group.isSome = true → g.Merging h.node

/-- The chain of one head succeeds. -/
theorem Handles.chain (hb : Handles g below k) (hh : Stands g k stop grouped h b)
    (hfree : ∀ x ∈ b.ids, x ∉ s) : (below.chain h stop).Passes s b.ids := by
  obtain ⟨hleaf, hlaid, hd, hsmall, hentry, hplain, hmerging⟩ := hh
  obtain ⟨head, group⟩ := h
  cases b with
  | done =>
    have hstop : stop = some head := by
      cases stop <;> simp_all
    subst hstop
    cases group with
    | none => exact ⟨[], s, hb.node_stop head s, fun y hy => Or.inl hy⟩
    | some group =>
      exact ⟨[group], s, gives_chain_iff_of_some.2 ⟨[], hb.afterGroup_stop head s, rfl⟩,
        fun y hy => Or.inl hy⟩
  | node id rest =>
    rw [entries_node, List.cons.injEq] at hentry
    obtain rfl := hentry.1
    cases hlaid with
    | node hsingle hflows hrest =>
      cases group with
      | none =>
        have hone := hsingle (hplain rfl)
        exact hb.node (.node (fun _ => hone) hflows hrest) ⟨hd, hsmall, hfree⟩
      | some group =>
        obtain ⟨layers, u, hgives, hbound⟩ := hb.afterGroup (hmerging rfl)
          (.node (fun hnot => absurd (List.mem_singleton_self _) hnot) hflows hrest)
          ⟨hd, hsmall, hfree⟩
        exact ⟨group :: layers, u, gives_chain_iff_of_some.2 ⟨layers, hgives, rfl⟩, hbound⟩
  | group m branches rest => cases hleaf
  | fan terms => cases hleaf

/-- The chains of heads with different nodes succeed one after the other. -/
theorem Handles.chains (hb : Handles g below k) (hl : List.Forall₂ (Stands g k stop grouped) l bs)
    (hnodup : (bs.flatMap ids).Nodup) (hfree : ∀ x ∈ bs.flatMap ids, x ∉ s) :
    (l.mapM fun h => below.chain h stop).Passes s (bs.flatMap ids) := by
  induction hl generalizing s with
  | nil => exact ⟨[], s, gives_mapM_nil_iff.2 ⟨rfl, rfl⟩, fun y hy => Or.inl hy⟩
  | @cons h b l bs hh _ ih =>
    rw [List.flatMap_cons] at hfree hnodup ⊢
    rw [List.nodup_append] at hnodup
    simp only [List.forall_mem_append] at hfree
    obtain ⟨layers, r, hone, hbound⟩ := hb.chain hh hfree.1
    have hrest : ∀ x ∈ bs.flatMap ids, x ∉ r := fun x hx hr => by
      rcases hbound x hr with hs | hin
      · exact hfree.2 x hx hs
      · exact hnodup.2.2 x hin x hx rfl
    obtain ⟨chains, u, hmore, hbound'⟩ := ih hnodup.2.1 hrest
    refine ⟨layers :: chains, u, gives_mapM_cons_iff.2 ⟨layers, r, chains, hone, hmore, rfl⟩,
      fun y hy => ?_⟩
    rw [List.mem_append]
    rcases hbound' y hy with hy | hy
    · exact (hbound y hy).imp_right Or.inl
    · exact Or.inr (Or.inr hy)

theorem forall₂_imp_of_mem {α β : Type} {R S : α → β → Prop} {as : List α} {bs : List β}
    (h : List.Forall₂ R as bs) (himp : ∀ a ∈ as, ∀ b ∈ bs, R a b → S a b) :
    List.Forall₂ S as bs := by
  induction h with
  | nil => exact .nil
  | cons hab _ ih =>
    simp only [List.forall_mem_cons] at himp
    exact .cons (himp.1.1 hab) (ih fun a ha b hb => (himp.2 a ha).2 b hb)

/-- Heads that are the entries of some terms can be told which of the terms they begin. -/
theorem exists_forall₂_entries (hone : ∀ b ∈ bs, ∃ e, b.entries stop = [e])
    (hnodes : (l.map Head.node).Perm (bs.flatMap fun b => b.entries stop)) :
    ∃ bs', bs'.Perm bs ∧ List.Forall₂ (fun h b => b.entries stop = [h.node]) l bs' := by
  have hentries : List.Forall₂ (fun e b => b.entries stop = [e])
      (bs.flatMap fun b => b.entries stop) bs := by
    clear hnodes
    induction bs with
    | nil => exact .nil
    | cons b bs ih =>
      rw [List.forall_mem_cons] at hone
      obtain ⟨e, he⟩ := hone.1
      rw [List.flatMap_cons, he]
      exact .cons he (ih hone.2)
  obtain ⟨bs', hforall, hperm⟩ := List.perm_comp_forall₂ hnodes hentries
  exact ⟨bs', hperm, List.forall₂_map_left_iff.1 hforall⟩

/-! ## Rounds -/

/-- Heads that are the entries of a small term whose nodes are not placed. -/
structure Opens (g : Graph) (k : Nat) (next : Option NodeId) (pending : List Head) (s : List NodeId)
    (grouped : List NodeId) (t : Term) : Prop where
  laid : Laid g grouped next t
  fresh : Fresh k next s t
  ne_done : t ≠ .done
  nodes : (pending.map Head.node).Perm (t.entries next)
  plain : ∀ h ∈ pending, h.group = none → h.node ∉ grouped
  merging : ∀ h ∈ pending, h.group.isSome = true → g.Merging h.node

/-- The heads that meet at the end of a bundle begin the branches of the bundle. -/
theorem Opens.stands (ho : Opens g k next pending s grouped t) (hg : g.Acyclic) {r : Bundle}
    (hr : r ∈ t.ready) : ∃ bs, bs.Perm r.branches ∧
      List.Forall₂ (Stands g k (some r.merge) grouped)
        (members pending (g.meeters (pending.map Head.node) next r.merge)) bs := by
  obtain ⟨hmerge, harrive, hlen, hbranches⟩ := ho.laid.of_mem_ready hr
  have hnodes := ho.laid.meeting_heads_perm hg ho.fresh.distinct ho.ne_done ho.nodes hr
  rw [List.filter_map] at hnodes
  have hone : ∀ b ∈ r.branches, ∃ e, b.entries (some r.merge) = [e] :=
    fun b hb => exists_entries_eq (hbranches b hb).1 (Or.inr rfl)
  obtain ⟨bs, hperm, hall⟩ := exists_forall₂_entries hone hnodes
  refine ⟨bs, hperm, ?_⟩
  rw [members_meeters]
  refine forall₂_imp_of_mem hall ?_
  intro h hh b hb he
  have hb := hperm.mem_iff.1 hb
  have hh := (List.mem_filter.1 hh).1
  have hids := (ids_perm ho.laid).symm
  have hsub : b.ids.Sublist (t.ready.flatMap Bundle.ids) :=
    (List.sublist_flatten_of_mem (List.mem_map_of_mem hb)).trans
      (List.sublist_flatten_of_mem (List.mem_map_of_mem hr))
  refine ⟨(hbranches b hb).1, (hbranches b hb).2, ?_, ?_, he, ho.plain h hh, ho.merging h hh⟩
  · have hmem := ho.laid.ready_sublist.mem (List.mem_map_of_mem hr)
    exact (hids.nodup_iff.2 ho.fresh.distinct.nodup).sublist
      (hsub.append (List.singleton_sublist.2 hmem))
  · have hlen := hids.length_eq
    rw [List.length_append] at hlen
    have hle := hsub.length_le
    have hsmall := ho.fresh.small
    omega

/-- The meeting of the heads that begin a bundle. -/
def meetingOf (g : Graph) (next : Option NodeId) (pending : List Head) (r : Bundle) :
    MeetingPoint :=
  ⟨r.merge, g.meeters (pending.map Head.node) next r.merge⟩

/-- The meetings of a round are those of the bundles. -/
theorem Opens.firstMeetings_perm (ho : Opens g k next pending s grouped t) (hg : g.Acyclic) :
    (g.firstMeetings (pending.map Head.node) next).Perm
      (t.ready.map (meetingOf g next pending)) := by
  refine (List.perm_ext_iff_of_nodup ?_ ?_).2 fun c => ?_
  · exact (g.nodup_firstMeetings _ _).of_map
  · refine List.Nodup.of_map MeetingPoint.point ?_
    rw [List.map_map]
    exact ho.laid.nodup_merges ho.fresh.distinct
  · rw [ho.laid.mem_firstMeetings_iff hg ho.fresh.distinct ho.ne_done ho.nodes, List.mem_map]
    exact exists_congr fun r => and_congr_right fun _ => eq_comm

/-- No head belongs to two meetings. -/
theorem Opens.apart (ho : Opens g k next pending s grouped t) (hg : g.Acyclic) :
    (g.firstMeetings (pending.map Head.node) next).Pairwise
      fun c d => ∀ i ∈ d.heads, i ∉ c.heads := by
  have hentries : ∀ {r : Bundle} {e : NodeId}, r ∈ t.ready → e ∈ pending.map Head.node →
      g.Leads next e r.merge → e ∈ r.entries := by
    intro r e hr he hpath
    have hentry := ho.nodes.mem_iff.1 he
    have hmem := mem_ids_of_mem_entries_of_ne ho.laid.shaped ho.ne_done hentry
    exact (ho.laid.mem_bundle_iff hg ho.fresh.distinct hr hentry).1
      ((ho.laid.leads_iff hg ho.fresh.distinct hmem).1 hpath).2
  have hbundles : (t.ready.flatMap Bundle.entries).Nodup :=
    (nodup_entries ho.laid.shaped ho.fresh.distinct.nodup).sublist ho.laid.entries_sublist
  have hpoints := List.pairwise_map.1 (g.nodup_firstMeetings (pending.map Head.node) next)
  refine hpoints.imp_of_mem fun {c d} hc hd hne i hi hi' => hne ?_
  obtain ⟨r, hr, rfl⟩ := List.mem_map.1 ((ho.firstMeetings_perm hg).mem_iff.1 hc)
  obtain ⟨r', hr', rfl⟩ := List.mem_map.1 ((ho.firstMeetings_perm hg).mem_iff.1 hd)
  obtain ⟨e, he, hpath⟩ := Graph.mem_meeters.1 hi
  obtain ⟨e', he', hpath'⟩ := Graph.mem_meeters.1 hi'
  obtain rfl : e = e' := Option.some.inj (he.symm.trans he')
  have hmem := List.mem_of_getElem? he
  rw [eq_of_mem_flatMap hbundles hr hr' (hentries hr hmem hpath') (hentries hr' hmem hpath)]

/-- The groups of a round can be formed, one after the other. -/
theorem Handles.forms (hb : Handles g below k) (config : CompilerConfig) (hg : g.Acyclic)
    (ho : Opens g k next pending s grouped t) {meetings : List MeetingPoint} {rs : List Bundle}
    (hall : List.Forall₂ (fun c r => c = meetingOf g next pending r) meetings rs)
    (hready : ∀ r ∈ rs, r ∈ t.ready) (hnodup : (rs.flatMap Bundle.ids).Nodup)
    {u : List NodeId} (hfree : ∀ x ∈ rs.flatMap Bundle.ids, x ∉ u) :
    ∃ groups v, Grouped g config below pending meetings u groups v ∧
      ∀ y ∈ v, y ∈ u ∨ y ∈ rs.flatMap Bundle.ids := by
  induction hall generalizing u with
  | nil => exact ⟨[], u, .nil u, fun y hy => Or.inl hy⟩
  | @cons c r meetings rs hc _ ih =>
    subst hc
    rw [List.forall_mem_cons] at hready
    rw [List.flatMap_cons] at hfree hnodup ⊢
    rw [List.nodup_append] at hnodup
    simp only [List.forall_mem_append] at hfree
    obtain ⟨bs, hperm, hstands⟩ := ho.stands hg hready.1
    have hbs : (bs.flatMap Term.ids).Perm r.ids := hperm.flatMap_right _
    obtain ⟨chains, v, hchains, hbound⟩ := hb.chains hstands (hbs.nodup_iff.2 hnodup.1)
      fun x hx => hfree.1 x (hbs.mem_iff.1 hx)
    have hlen : chains.length = g.arrivals r.merge := by
      rw [length_of_gives_mapM hchains, hstands.length_eq, hperm.length_eq,
        (ho.laid.of_mem_ready hready.1).2.1]
    have hrest : ∀ x ∈ rs.flatMap Bundle.ids, x ∉ v := fun x hx hv => by
      rcases hbound x hv with hu | hin
      · exact hfree.2 x hx hu
      · exact hnodup.2.2 x (hbs.mem_iff.1 hin) x hx rfl
    obtain ⟨groups, w, hgroups, hbound'⟩ := ih hready.2 hnodup.2.1 hrest
    refine ⟨_, w, .cons hchains hlen hgroups, fun y hy => ?_⟩
    rw [List.mem_append]
    rcases hbound' y hy with hy | hy
    · exact (hbound y hy).imp_right fun hy => Or.inl (hbs.mem_iff.1 hy)
    · exact Or.inr (Or.inr hy)

/-- A round of grouping succeeds. -/
theorem Handles.groupsAt (hb : Handles g below k) (config : CompilerConfig) (hg : g.Acyclic)
    (ho : Opens g k next pending s grouped t) : ∃ groups marks u,
      (below.groupsAt g config pending (g.firstMeetings (pending.map Head.node) next) []).Gives s
        (groups, marks) u ∧ ∀ y ∈ u, y ∈ s ∨ y ∈ t.ready.flatMap Bundle.ids := by
  have hsame : List.Forall₂ (fun c r => c = meetingOf g next pending r)
      (t.ready.map (meetingOf g next pending)) t.ready :=
    List.forall₂_map_left_iff.2 (List.forall₂_same.2 fun r _ => rfl)
  obtain ⟨rs, hall, hperm⟩ := List.perm_comp_forall₂ (ho.firstMeetings_perm hg) hsame
  have hids : (rs.flatMap Bundle.ids).Perm (t.ready.flatMap Bundle.ids) := hperm.flatMap_right _
  have hfree : ∀ x ∈ rs.flatMap Bundle.ids, x ∉ s := fun x hx =>
    ho.fresh.free x ((ids_perm ho.laid).mem_iff.2 (List.mem_append_left _ (hids.mem_iff.1 hx)))
  obtain ⟨groups, u, hgroups, hbound⟩ := hb.forms config hg ho hall
    (fun r hr => hperm.mem_iff.1 hr)
    (hids.nodup_iff.2 (ho.laid.nodup_bundle_ids ho.fresh.distinct)) hfree
  have hlen : groups.length = (g.firstMeetings (pending.map Head.node) next).length := by
    rw [← List.length_map (f := Head.node), hgroups.nodes, List.length_map]
  refine ⟨((g.firstMeetings (pending.map Head.node) next).map fun c => c.heads.headD 0).zip groups,
    _, u, gives_groupsAt_iff.2 ⟨ho.apart hg, by simp, rfl, ?_, ?_⟩,
    fun y hy => (hbound y hy).imp_right hids.mem_iff.1⟩
  · exact List.map_fst_zip (by rw [List.length_map, hlen])
  · rwa [List.map_snd_zip (by rw [List.length_map, hlen])]

/-- The heads that meet in a round are the entries of the bundles. -/
theorem Opens.members_perm (ho : Opens g k next pending s grouped t) (hg : g.Acyclic) :
    (((g.firstMeetings (pending.map Head.node) next).flatMap fun c =>
      members pending c.heads).map Head.node).Perm (t.ready.flatMap Bundle.entries) := by
  rw [List.map_flatMap]
  refine ((ho.firstMeetings_perm hg).flatMap_right _).trans ?_
  rw [List.flatMap_map]
  refine List.Perm.flatMap_left _ ?_
  intro r hr
  have hstarts := ho.laid.meeting_heads_perm hg ho.fresh.distinct ho.ne_done ho.nodes hr
  rw [List.filter_map] at hstarts
  simp only [meetingOf, members_meeters]
  exact hstarts

/-- The nodes of the bundles are placed in a round, and those of the contracted term are not. -/
theorem Fresh.contract (hf : Fresh k next s t) (hlaid : Laid g grouped next t) {u : List NodeId}
    (hbound : ∀ y ∈ u, y ∈ s ∨ y ∈ t.ready.flatMap Bundle.ids) : Fresh k next u t.contract := by
  have hids := ids_perm hlaid
  refine ⟨hf.distinct.contract hlaid, ?_, ?_⟩
  · have hlen := hids.length_eq
    rw [List.length_append] at hlen
    have hsmall := hf.small
    omega
  · intro x hx hu
    rcases hbound x hu with hs | hin
    · exact hf.free x (hids.mem_iff.2 (List.mem_append_right _ hx)) hs
    · have hnodup := List.nodup_append.1 (hids.nodup_iff.1 hf.distinct.nodup)
      exact hnodup.2.2 x hin x hx rfl

/-- After a round, the heads are the entries of the contracted term. -/
theorem Opens.round (ho : Opens g k next pending s grouped t) (hg : g.Acyclic)
    {groups : List (Nat × Head)} {marks : List Nat} {u : List NodeId}
    (run : (below.groupsAt g config pending
      (g.firstMeetings (pending.map Head.node) next) []).Gives s (groups, marks) u)
    (hbound : ∀ y ∈ u, y ∈ s ∨ y ∈ t.ready.flatMap Bundle.ids) :
    Opens g k next (regroup pending groups marks) u (t.ready.map Bundle.merge ++ grouped)
      t.contract := by
  obtain ⟨-, hgrouped, hregroup, hsplit⟩ := Graph.groupsAt_round run
  have hpoints : ((groups.map Prod.snd).map Head.node).Perm (t.ready.map Bundle.merge) := by
    rw [hgrouped.nodes]
    simpa [meetingOf, Function.comp_def] using (ho.firstMeetings_perm hg).map MeetingPoint.point
  have hnodes : ((regroup pending groups marks).map Head.node).Perm (t.contract.entries next) := by
    refine List.perm_iff_count.2 ?_
    intro x
    have h1 := (hregroup.map Head.node).count_eq x
    have h2 := (hsplit.map Head.node).count_eq x
    have h3 := (entries_perm ho.laid).count_eq x
    have h4 := ho.nodes.count_eq x
    have h5 := hpoints.count_eq x
    have h6 := (ho.members_perm hg).count_eq x
    simp only [List.map_append, List.count_append] at h1 h2 h3
    omega
  have hlaid : Laid g (t.ready.map Bundle.merge ++ grouped) next t.contract :=
    ho.laid.contract (fun x hx => List.mem_append_right _ hx)
      fun r hr => List.mem_append_left _ (List.mem_map_of_mem hr)
  constructor
  case laid => exact hlaid
  case fresh => exact ho.fresh.contract ho.laid hbound
  case ne_done => simpa using ho.ne_done
  case nodes => exact hnodes
  case plain =>
    intro h hh hgroup
    rcases List.mem_append.1 (hregroup.mem_iff.1 hh) with hh | hh
    · obtain ⟨c, -, chains, -, -, rfl⟩ := hgrouped.exists_chains hh
      cases hgroup
    rw [List.mem_append, not_or]
    refine ⟨fun hmerge => ?_, ho.plain h ((others_sublist ..).mem hh) hgroup⟩
    -- a head that is left does not stand at the end of a bundle
    have hdiff := (((hregroup.map Head.node).symm.trans hnodes).nodup_iff).2
      (nodup_entries hlaid.shaped (ho.fresh.distinct.contract ho.laid).nodup)
    rw [List.map_append, List.nodup_append] at hdiff
    exact hdiff.2.2 h.node (hpoints.mem_iff.2 hmerge) h.node (List.mem_map_of_mem hh) rfl
  case merging =>
    intro h hh hgroup
    rcases List.mem_append.1 (hregroup.mem_iff.1 hh) with hh | hh
    · obtain ⟨r, hr, he⟩ := List.mem_map.1 (hpoints.mem_iff.1 (List.mem_map_of_mem hh))
      rw [← he]
      exact (ho.laid.of_mem_ready hr).1
    · exact ho.merging h ((others_sublist ..).mem hh) hgroup

/-- The rounds succeed and end when the term begins with no group. -/
theorem Handles.rounds {fuel : Nat} (hb : Handles g below k) (config : CompilerConfig)
    (hg : g.Acyclic) (ho : Opens g k next pending s grouped t) (hfuel : pending.length ≤ fuel) :
    ∃ final u grouped' t', (below.rounds g config next fuel pending).Gives s final u ∧
      Opens g k next final u grouped' t' ∧ t'.ready = [] ∧ (∀ y ∈ u, y ∈ s ∨ y ∈ t.ids) ∧
      ∀ x ∈ t'.ids, x ∈ t.ids := by
  induction fuel generalizing pending s grouped t with
  | zero =>
    obtain ⟨e, he⟩ := exists_mem_entries ho.laid.shaped (Or.inl ho.ne_done)
    have hnone := List.eq_nil_of_length_eq_zero (Nat.le_zero.1 hfuel)
    have hmem := ho.nodes.mem_iff.2 he
    rw [hnone] at hmem
    exact absurd hmem List.not_mem_nil
  | succ fuel ih =>
    have hmeetings := ho.firstMeetings_perm hg
    by_cases hready : t.ready = []
    · rw [hready] at hmeetings
      exact ⟨pending, s, grouped, t,
        gives_rounds_succ_iff.2 (Or.inl ⟨hmeetings.eq_nil, rfl, rfl⟩), ho, hready,
        fun y hy => Or.inl hy, fun x hx => hx⟩
    obtain ⟨groups, marks, u, run, hbound⟩ := hb.groupsAt config hg ho
    have hround := ho.round hg run hbound
    have hids := ids_perm ho.laid
    have hlen : (regroup pending groups marks).length ≤ fuel := by
      have hlt := ho.laid.length_entries_contract_lt hready
      rw [← ho.nodes.length_eq, ← hround.nodes.length_eq, List.length_map, List.length_map] at hlt
      omega
    obtain ⟨final, v, grouped', t', hmore, ho', hready', hbound', hsub⟩ := ih hround hlen
    refine ⟨final, v, grouped', t',
      gives_rounds_succ_iff.2 (Or.inr ⟨?_, groups, marks, u, run, hmore⟩), ho', hready', fun y hy => ?_, fun x hx => ?_⟩
    · intro hnone
      rw [hnone] at hmeetings
      exact hready (List.map_eq_nil_iff.1 hmeetings.symm.eq_nil)
    · rcases hbound' y hy with hy | hy
      · exact (hbound y hy).imp_right fun hy => hids.mem_iff.2 (List.mem_append_left _ hy)
      · exact Or.inr (hids.mem_iff.2 (List.mem_append_right _ hy))
    · exact hids.mem_iff.2 (List.mem_append_right _ (hsub x hx))

/-- Where no group is left to be formed, the chains of the heads succeed. -/
theorem Handles.finish (hb : Handles g below k) (ho : Opens g k next pending s grouped t)
    (hready : t.ready = []) : ∃ chains u,
      (pending.mapM fun h => below.chain h next).Gives s chains u ∧
      (chains.length ≤ 1 ∨ next = none) ∧ ∀ y ∈ u, y ∈ s ∨ y ∈ t.ids := by
  obtain ⟨bs, hids, hentries, hshape, hleaves⟩ :=
    ho.laid.exists_leaves ho.fresh.distinct ho.ne_done hready
  have hnodes := ho.nodes
  rw [← hentries] at hnodes
  obtain ⟨bs', hperm, hall⟩ := exists_forall₂_entries
    (fun b hb => exists_entries_eq (hleaves b hb).1 (Or.inl (hleaves b hb).2.1)) hnodes
  have hids' : (bs'.flatMap ids).Perm t.ids := hids ▸ hperm.flatMap_right _
  have hstands : List.Forall₂ (Stands g k next grouped) pending bs' := by
    refine forall₂_imp_of_mem hall ?_
    intro h hh b hb he
    obtain ⟨hleaf, -, hlaid, hd⟩ := hleaves b (hperm.mem_iff.1 hb)
    have hsub : b.ids.Sublist (bs'.flatMap ids) :=
      List.sublist_flatten_of_mem (List.mem_map_of_mem hb)
    have hsmall := hsub.length_le.trans (hids'.length_eq.le.trans ho.fresh.small)
    exact ⟨hleaf, hlaid, hd, hsmall, he, ho.plain h hh, ho.merging h hh⟩
  obtain ⟨chains, u, hchains, hbound⟩ := hb.chains hstands
    (hids'.nodup_iff.2 ho.fresh.distinct.nodup) fun x hx => ho.fresh.free x (hids'.mem_iff.1 hx)
  refine ⟨chains, u, hchains, ?_, fun y hy => (hbound y hy).imp_right hids'.mem_iff.1⟩
  rwa [length_of_gives_mapM hchains, hall.length_eq, hperm.length_eq]

/-! ## Heads -/

/-- The heads where a term begins converge. -/
theorem Handles.converge (hb : Handles g below k) (config : CompilerConfig) (hg : g.Acyclic)
    (hlaid : Laid g [] next t) (hf : Fresh k next s t) (hne : t ≠ .done)
    (hstarts : starts.Perm (t.entries next)) : ∃ chains u,
      (below.converge g config starts next).Gives s chains u ∧
      (chains.length ≤ 1 ∨ next = none) ∧ ∀ y ∈ u, y ∈ s ∨ y ∈ t.ids := by
  have hnodes : (starts.map fun id => (⟨id, none⟩ : Head)).map Head.node = starts := by
    rw [List.map_map]
    exact List.map_id starts
  have ho : Opens g k next (starts.map fun id => ⟨id, none⟩) s [] t := by
    refine ⟨hlaid, hf, hne, hnodes.symm ▸ hstarts, fun _ _ _ => List.not_mem_nil, ?_⟩
    simp
  obtain ⟨final, u, grouped', t', hrounds, ho', hready, hbound, hsub⟩ :=
    hb.rounds config hg ho (Nat.le_of_eq (List.length_map ..))
  obtain ⟨chains, v, hchains, hshape, hbound'⟩ := hb.finish ho' hready
  refine ⟨chains, v, gives_converge_iff.2 ⟨final, u, hrounds, hchains⟩, hshape, fun y hy => ?_⟩
  rcases hbound' y hy with hy | hy
  · exact hbound y hy
  · exact Or.inr (hsub y hy)

theorem Handles.mergeHeads (hb : Handles g below k) (config : CompilerConfig) (hg : g.Acyclic)
    (hlaid : Laid g [] next t) (hf : Fresh k next s t) (hne : t ≠ .done)
    (hstarts : starts.Perm (t.entries next)) :
    (below.mergeHeads g config starts next).Passes s t.ids := by
  obtain ⟨chains, u, hchains, hshape, hbound⟩ :=
    hb.converge config hg hlaid hf hne hstarts
  have hlen : (chains.filter fun chain => !chain.isEmpty).length ≤ chains.length :=
    List.length_filter_le ..
  match hfull : chains.filter (fun chain => !chain.isEmpty) with
  | [] => exact ⟨[], u, gives_mergeHeads_iff.2 ⟨chains, hchains, Or.inl ⟨hfull, rfl⟩⟩, hbound⟩
  | [chain] =>
    exact ⟨chain, u, gives_mergeHeads_iff.2 ⟨chains, hchains, Or.inr (Or.inl hfull)⟩, hbound⟩
  | _ :: _ :: _ =>
    rw [hfull, List.length_cons, List.length_cons] at hlen
    have hnone := hshape.resolve_left (by omega)
    refine ⟨_, u, gives_mergeHeads_iff.2
      ⟨chains, hchains, Or.inr (Or.inr ⟨?_, hnone, rfl⟩)⟩, hbound⟩
    rw [hfull]
    simp

/-- The heads where a term begins expand. -/
theorem Handles.heads (hb : Handles g below k) (config : CompilerConfig) (hg : g.Acyclic)
    (hlaid : Laid g [] next t) (hf : Fresh k next s t) (hne : t ≠ .done)
    (hstarts : starts.Perm (t.entries next)) :
    (below.heads g config starts next).Passes s t.ids := by
  by_cases hleaf : t.isLeaf = true
  · cases hlaid with
    | done => exact absurd rfl hne
    | node hsingle hflows hrest =>
      rw [entries_node] at hstarts
      rw [hstarts.eq_singleton]
      exact hb.node (.node hsingle hflows hrest) hf
    | group _ _ _ _ _ _ _ => cases hleaf
    | fan _ _ _ => cases hleaf
  · have hlen := one_lt_length_entries hlaid (by simpa using hleaf)
    rw [← hstarts.length_eq] at hlen
    obtain ⟨layers, u, hgives, hbound⟩ := hb.mergeHeads config hg hlaid hf hne hstarts
    exact ⟨layers, u, (gives_heads_iff hlen).2 hgives, hbound⟩

/-- What a node feeds expands. -/
theorem Handles.successors (hb : Handles g below k) (config : CompilerConfig) (hg : g.Acyclic)
    (hflows : ∀ b, g.Flows id b ↔ b ∈ rest.entries next) (hlaid : Laid g [] next rest)
    (hf : Fresh k next s rest) :
    (below.successors g config id next).Passes s rest.ids := by
  by_cases hdone : rest = .done
  · subst hdone
    have hnone : (g.successors id).filter (fun n => some n ≠ next) = [] := by
      refine List.filter_eq_nil_iff.2 ?_
      intro b hb
      have hmem := (hflows b).1 hb
      rw [entries_done, Option.mem_toList] at hmem
      simp [hmem]
    refine ⟨[], s, gives_successors_iff.2 ⟨Or.inr (Or.inl hnone), ?_⟩, fun y hy => Or.inl hy⟩
    rw [hnone, gives_heads_nil_iff]
    exact ⟨rfl, rfl⟩
  have hall : (g.successors id).filter (fun n => some n ≠ next) = g.successors id := by
    refine List.filter_eq_self.2 ?_
    intro b hb
    have hmem := mem_ids_of_mem_entries_of_ne hlaid.shaped hdone ((hflows b).1 hb)
    simpa using hf.distinct.ne_next hmem
  have hperm : (g.successors id).Perm (rest.entries next) :=
    (List.perm_ext_iff_of_nodup (g.nodup_successors id)
      (nodup_entries hlaid.shaped hf.distinct.nodup)).2 hflows
  obtain ⟨layers, u, hgives, hbound⟩ := hb.heads config hg hlaid hf hdone hperm
  refine ⟨layers, u, gives_successors_iff.2 ⟨Or.inr (Or.inr hall), ?_⟩, hbound⟩
  rwa [hall]

/-! ## Levels -/

/-- Once a node is placed, what it feeds expands. -/
theorem Handles.behind (hb : Handles g below k) (config : CompilerConfig) (hg : g.Acyclic)
    (hlaid : Laid g grouped next (.node id rest)) (hf : Fresh (k + 1) next s (.node id rest)) :
    ∃ layers u, (below.successors g config id next).Gives (id :: s) layers u ∧
      ∀ y ∈ u, y ∈ s ∨ y ∈ (Term.node id rest).ids := by
  obtain ⟨hid, hrest⟩ := hf.distinct.node_rest
  have hplaced : Fresh k next (id :: s) rest := by
    refine ⟨hrest, Nat.le_of_succ_le_succ hf.small, ?_⟩
    intro x hx
    rw [List.mem_cons, not_or]
    exact ⟨fun e => hid (e ▸ hx), hf.free x (List.mem_cons_of_mem _ hx)⟩
  cases hlaid with
  | node _ hflows hlaid =>
    obtain ⟨layers, u, hgives, hbound⟩ := hb.successors config hg hflows hlaid hplaced
    refine ⟨layers, u, hgives, ?_⟩
    intro y hy
    rw [ids_node, List.mem_cons]
    rcases hbound y hy with hy | hy
    · exact (List.mem_cons.1 hy).symm.imp_right Or.inl
    · exact Or.inr (Or.inr hy)

/-- A level of expansion handles one node more than the levels below it. -/
theorem Handles.deeper (hb : Handles g below k) (config : CompilerConfig) (hg : g.Acyclic) :
    Handles g (below.deeper g config) (k + 1) where
  node_stop id s := gives_expandNode_stop.2 ⟨rfl, rfl⟩
  afterGroup_stop id s := gives_expandAfterGroup_stop.2 ⟨rfl, rfl⟩
  node := by
    intro id rest next s hlaid hf
    obtain ⟨layers, u, hgives, hbound⟩ := hb.behind config hg hlaid hf
    have hstop : some id ≠ next := hf.distinct.ne_next (by simp)
    cases hlaid with
    | node hsingle _ _ =>
      obtain ⟨n, hn, hplain, hinputs⟩ := hsingle List.not_mem_nil
      refine ⟨_, u, (gives_expandNode_iff hstop hn).2 ⟨hf.free id (by simp), hinputs, [], [],
        id :: s, layers, ?_, hgives, rfl⟩, hbound⟩
      rw [hplain, if_neg Bool.false_ne_true]
      exact ⟨rfl, rfl, rfl⟩
  afterGroup := by
    intro id rest next s hmerging hlaid hf
    obtain ⟨layers, u, hgives, hbound⟩ := hb.behind config hg hlaid hf
    have hstop : some id ≠ next := hf.distinct.ne_next (by simp)
    obtain ⟨n, hn, hmerge⟩ := hmerging
    exact ⟨layers, u,
      (gives_expandAfterGroup_iff hstop hn hmerge).2 ⟨hf.free id (by simp), hgives⟩, hbound⟩

/-- So many levels of expansion handle so many nodes. -/
theorem handles_levels (config : CompilerConfig) (hg : g.Acyclic) (k : Nat) :
    Handles g (levels g config k) k := by
  induction k with
  | zero =>
    constructor
    case node_stop =>
      intro id s
      simp only [levels, exhausted, true_or, if_true, gives_pure_iff, and_self]
    case afterGroup_stop =>
      intro id s
      simp only [levels, exhausted, if_true, gives_pure_iff, and_self]
    case node =>
      intro id rest next s _ hf
      exact absurd hf.small (by simp)
    case afterGroup =>
      intro id rest next s _ _ hf
      exact absurd hf.small (by simp)
  | succ k ih => exact ih.deeper config hg

end Term

end LayerNet
