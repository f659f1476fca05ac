import LayerNet.Compile.Expansion
import LayerNet.Proofs.Flow
import Mathlib.Data.List.Perm.Basic

/-!
# Heads and where they meet

The compiler keeps its heads in a list and speaks about them by their places.  Here the places turn
into heads: `Graph.meeters` are the places of the heads that reach a node, `mem_firstMeetings_iff`
says which points a round of grouping finds, and `regroup_perm` says which heads it leaves.
-/

namespace LayerNet

variable {g : Graph} {stop : Option NodeId} {pending : List Head}

/-! ## Where heads meet -/

namespace Graph

/-- The places of the heads that reach a node. -/
def meeters (g : Graph) (heads : List NodeId) (stop : Option NodeId) (p : NodeId) : List Nat :=
  ((heads.map fun head => g.reachableFrom head stop).zipIdx.filter fun r => p ∈ r.1).map Prod.snd

theorem mem_meeters {heads : List NodeId} {p : NodeId} {i : Nat} :
    i ∈ g.meeters heads stop p ↔ ∃ head, heads[i]? = some head ∧ g.Leads stop head p := by
  simp only [meeters, List.mem_map, List.mem_filter, decide_eq_true_eq, Prod.exists,
    List.mem_zipIdx_iff_getElem?, List.getElem?_map, Option.map_eq_some_iff]
  constructor
  · rintro ⟨reach, j, ⟨⟨head, hhead, rfl⟩, hp⟩, rfl⟩
    exact ⟨head, hhead, mem_reachableFrom.1 hp⟩
  · rintro ⟨head, hhead, hp⟩
    exact ⟨_, i, ⟨⟨head, hhead, rfl⟩, mem_reachableFrom.2 hp⟩, rfl⟩

theorem nodup_meeters (g : Graph) (heads : List NodeId) (stop : Option NodeId) (p : NodeId) :
    (g.meeters heads stop p).Nodup := by
  have hidx : ((heads.map fun head => g.reachableFrom head stop).zipIdx.map Prod.snd).Nodup := by
    rw [List.zipIdx_map_snd]
    exact List.nodup_range'
  exact hidx.sublist (List.Sublist.map _ List.filter_sublist)

theorem meeters_map {α : Type} (l : List α) (f : α → NodeId) (p : NodeId) :
    g.meeters (l.map f) stop p =
      ((l.zipIdx.filter fun r => p ∈ g.reachableFrom (f r.1) stop).map Prod.snd) := by
  rw [meeters, List.map_map, List.zipIdx_map, List.filter_map, List.map_map]
  rfl

/-- There are as many places as heads that reach the node. -/
theorem length_meeters (heads : List NodeId) (p : NodeId) :
    (g.meeters heads stop p).length =
      (heads.filter fun head => p ∈ g.reachableFrom head stop).length := by
  conv_lhs => rw [← List.map_id heads, meeters_map, List.length_map]
  conv_rhs => rw [← List.zipIdx_map_fst 0 heads, List.filter_map, List.length_map]
  rfl

theorem mem_candidates {heads : List NodeId} {c : MeetingPoint} :
    c ∈ MeetingPoint.candidates (heads.map fun head => g.reachableFrom head stop) ↔
      c.heads = g.meeters heads stop c.point ∧ 2 ≤ c.heads.length := by
  simp only [MeetingPoint.candidates, List.mem_filter, List.mem_map, List.mem_eraseDups,
    decide_eq_true_eq]
  constructor
  · rintro ⟨⟨p, -, rfl⟩, hlen⟩
    exact ⟨rfl, hlen⟩
  · rintro ⟨hheads, hlen⟩
    refine ⟨⟨c.point, ?_, by rw [← meeters, ← hheads]⟩, hlen⟩
    obtain ⟨i, hi⟩ : ∃ i, i ∈ c.heads :=
      List.exists_mem_of_length_pos (Nat.lt_of_lt_of_le Nat.zero_lt_two hlen)
    rw [hheads] at hi
    obtain ⟨head, hhead, hp⟩ := mem_meeters.1 hi
    exact List.mem_flatten.2
      ⟨_, List.mem_map.2 ⟨head, List.mem_of_getElem? hhead, rfl⟩, mem_reachableFrom.2 hp⟩

/-- A point is found together with all the heads that reach it, if there are two of them and they do
not meet before it. -/
theorem mem_firstMeetings_iff {heads : List NodeId} {c : MeetingPoint} :
    c ∈ g.firstMeetings heads stop ↔
      c.heads = g.meeters heads stop c.point ∧ 2 ≤ c.heads.length ∧
        ∀ other, other ≠ c.point → 2 ≤ (g.meeters heads stop other).length →
          (∃ i ∈ c.heads, i ∈ g.meeters heads stop other) → ¬g.Leads stop other c.point := by
  rw [firstMeetings, List.mem_filter, mem_candidates, and_assoc]
  refine and_congr_right fun hheads => and_congr_right ?_
  intro _
  have hreach : ∀ (i : Nat) (other : NodeId),
      other ∈ ((heads.map fun head => g.reachableFrom head stop)[i]?).getD [] ↔
        i ∈ g.meeters heads stop other := by
    intro i other
    rw [mem_meeters, List.getElem?_map]
    cases heads[i]? with
    | none => simp
    | some head => simp [mem_reachableFrom]
  simp only [Bool.not_eq_true', List.any_eq_false, List.mem_map, Bool.and_eq_true, List.any_eq_true,
    decide_eq_true_eq, not_and, hreach]
  constructor
  · intro h other hne hlen hshare hleads
    refine h _ ⟨⟨other, g.meeters heads stop other⟩, mem_candidates.2 ⟨rfl, hlen⟩, rfl⟩ ⟨?_, ?_⟩ ?_
    · simpa using hne
    · exact hshare
    · exact mem_reachableFrom.2 hleads
  · rintro h _ ⟨d, hd, rfl⟩ ⟨hne, hshare⟩ hreached
    obtain ⟨hdheads, hdlen⟩ := mem_candidates.1 hd
    rw [hdheads] at hdlen
    exact h d.point (by simpa using hne) hdlen hshare (mem_reachableFrom.1 hreached)

theorem nodup_firstMeetings (g : Graph) (heads : List NodeId) (stop : Option NodeId) :
    ((g.firstMeetings heads stop).map MeetingPoint.point).Nodup := by
  unfold firstMeetings
  refine List.Nodup.sublist (List.Sublist.map _ List.filter_sublist) ?_
  unfold MeetingPoint.candidates
  refine List.Nodup.sublist (List.Sublist.map _ List.filter_sublist) ?_
  rw [List.map_map]
  simpa [Function.comp_def] using nodup_eraseDups _

end Graph

/-! ## Lists of heads -/

/-- The heads at the given places. -/
def members (pending : List Head) (places : List Nat) : List Head :=
  places.filterMap fun i => pending[i]?

/-- The heads at all other places. -/
def others (pending : List Head) (places : List Nat) : List Head :=
  (pending.zipIdx.filter fun h => h.2 ∉ places).map Prod.fst

theorem members_append (pending : List Head) (places more : List Nat) :
    members pending (places ++ more) = members pending places ++ members pending more :=
  List.filterMap_append ..

theorem mem_members {places : List Nat} {h : Head} :
    h ∈ members pending places ↔ ∃ i ∈ places, pending[i]? = some h := List.mem_filterMap

/-- The heads at the places of those that reach a node. -/
theorem members_meeters (pending : List Head) (p : NodeId) :
    members pending (g.meeters (pending.map Head.node) stop p) =
      pending.filter fun h => p ∈ g.reachableFrom h.node stop := by
  have hget : ∀ (l : List (Head × Nat)), (∀ r ∈ l, pending[r.2]? = some r.1) →
      members pending (l.map Prod.snd) = l.map Prod.fst := by
    intro l hl
    induction l with
    | nil => rfl
    | cons r l ih =>
      rw [List.forall_mem_cons] at hl
      have htail := ih hl.2
      unfold members at htail ⊢
      rw [List.map_cons, List.map_cons, List.filterMap_cons, hl.1, htail]
  rw [Graph.meeters_map, hget]
  · conv_rhs => rw [← List.zipIdx_map_fst 0 pending, List.filter_map]
    rfl
  · intro r hr
    exact List.mem_zipIdx_iff_getElem?.1 (List.mem_filter.1 hr).1

theorem mem_others {places : List Nat} {h : Head} :
    h ∈ others pending places ↔ ∃ i, i ∉ places ∧ pending[i]? = some h := by
  simp only [others, List.mem_map, List.mem_filter, decide_eq_true_eq, Prod.exists,
    List.mem_zipIdx_iff_getElem?]
  constructor
  · rintro ⟨h, i, ⟨hi, hplaces⟩, rfl⟩
    exact ⟨i, hplaces, hi⟩
  · rintro ⟨i, hplaces, hi⟩
    exact ⟨h, i, ⟨hi, hplaces⟩, rfl⟩

/-- Different places divide a list into the heads at these places and the heads at all others. -/
theorem members_append_others_perm {places : List Nat} (h : places.Nodup) :
    (members pending places ++ others pending places).Perm pending := by
  have hsplit := List.filter_append_perm (fun h : Head × Nat => h.2 ∈ places) pending.zipIdx
  have hpairs : ((places.filterMap fun i => (pending[i]?).map fun h => (h, i)).Perm
      (pending.zipIdx.filter fun h => h.2 ∈ places)) := by
    refine (List.perm_ext_iff_of_nodup ?_ ?_).2 fun ⟨h, i⟩ => ?_
    · refine List.Nodup.filterMap (fun i j h hi hj => ?_) h
      simp only [Option.mem_def, Option.map_eq_some_iff] at hi hj
      obtain ⟨x, -, rfl⟩ := hi
      obtain ⟨y, -, e⟩ := hj
      exact (congrArg Prod.snd e).symm
    · refine List.Nodup.filter _ (List.Nodup.of_map Prod.snd ?_)
      rw [List.zipIdx_map_snd]
      exact List.nodup_range'
    · simp only [List.mem_filterMap, Option.map_eq_some_iff, Prod.mk.injEq, List.mem_filter,
        List.mem_zipIdx_iff_getElem?, decide_eq_true_eq]
      constructor
      · rintro ⟨j, hj, x, hx, rfl, rfl⟩
        exact ⟨hx, hj⟩
      · rintro ⟨hx, hj⟩
        exact ⟨i, hj, h, hx, rfl, rfl⟩
  have hmembers : members pending places =
      (places.filterMap fun i => (pending[i]?).map fun h => (h, i)).map Prod.fst := by
    rw [members, List.map_filterMap]
    congr 1
    funext i
    cases pending[i]? <;> rfl
  have hothers : others pending places =
      (pending.zipIdx.filter fun h => !decide (h.2 ∈ places)).map Prod.fst := by
    unfold others
    congr 2
    funext h
    simp
  rw [hmembers, hothers, ← List.map_append]
  refine ((hpairs.append_right _).trans hsplit).map Prod.fst |>.trans ?_
  rw [List.zipIdx_map_fst]

/-- A round leaves the new groups and the heads that belong to none. -/
theorem regroup_perm {groups : List (Nat × Head)} (taken : List Nat)
    (h : ∀ group ∈ groups, group.1 < pending.length) :
    (Expander.regroup pending groups taken).Perm
      (groups.map Prod.snd ++ others pending taken) := by
  have hsome : ∀ (l : List (Head × Nat)), (l.map Prod.snd).Nodup →
      (l.flatMap fun x => ((groups.filter fun group => group.1 = x.2).map Prod.snd) ++
        if x.2 ∈ taken then [] else [x.1]).Perm
      (((groups.filter fun group => group.1 ∈ l.map Prod.snd).map Prod.snd) ++
        (l.filter fun x => x.2 ∉ taken).map Prod.fst) := by
    intro l hl
    induction l with
    | nil => simp
    | cons x l ih =>
      rw [List.map_cons, List.nodup_cons] at hl
      have hsplit := (List.filter_append_perm (fun group : Nat × Head => group.1 = x.2)
        (groups.filter fun group => group.1 ∈ (x :: l).map Prod.snd)).symm
      have hhead : ((groups.filter fun group => group.1 ∈ (x :: l).map Prod.snd).filter
          fun group => group.1 = x.2) = groups.filter fun group => group.1 = x.2 := by
        rw [List.filter_filter]
        refine List.filter_congr ?_
        intro group _
        by_cases e : group.1 = x.2 <;> simp [e]
      have htail : ((groups.filter fun group => group.1 ∈ (x :: l).map Prod.snd).filter
          fun group => !decide (group.1 = x.2)) =
            groups.filter fun group => group.1 ∈ l.map Prod.snd := by
        rw [List.filter_filter]
        refine List.filter_congr ?_
        intro group _
        by_cases e : group.1 = x.2
        · simpa [e] using hl.1
        · simp [e]
      rw [hhead, htail] at hsplit
      have hx : (((x :: l).filter fun x => x.2 ∉ taken).map Prod.fst) =
          (if x.2 ∈ taken then [] else [x.1]) ++ (l.filter fun x => x.2 ∉ taken).map Prod.fst := by
        by_cases hx : x.2 ∈ taken <;> simp [hx]
      rw [List.flatMap_cons, hx]
      refine ((ih hl.2).append_left _).trans ?_
      refine List.Perm.trans ?_ ((hsplit.map Prod.snd).append_right _).symm
      rw [List.map_append]
      simp only [List.append_assoc]
      refine List.Perm.append_left _ ?_
      rw [← List.append_assoc, ← List.append_assoc]
      exact List.perm_append_comm.append_right _
  have hall : (groups.filter fun group => group.1 ∈ pending.zipIdx.map Prod.snd) = groups := by
    refine List.filter_eq_self.2 ?_
    intro group hgroup
    rw [List.zipIdx_map_snd, decide_eq_true_iff, List.mem_range'_1]
    exact ⟨Nat.zero_le _, by simpa using h group hgroup⟩
  have hidx : (pending.zipIdx.map Prod.snd).Nodup := by
    rw [List.zipIdx_map_snd]
    exact List.nodup_range'
  have hperm := hsome pending.zipIdx hidx
  rw [hall] at hperm
  exact hperm

end LayerNet
