import LayerNet.Proofs.Laying
import Mathlib.Data.List.Flatten

/-!
# Contracting groups

A round of grouping finds the groups at the beginning of a term whose branches hold no groups
themselves: the bundles of `Term.ready`.  `Term.contract` is the term after the round, in which each
bundle has become the node that closes it.

* `entries_perm` and `ids_perm` say where the entries and the nodes of a term go.
* `Laid.mem_bundle_iff` — a merging node is reached by the entries of its own bundle only.
* `Laid.exists_bundle` — a node that two entries reach comes after a bundle.
* `Laid.mem_firstMeetings_iff` — the points found by a round are exactly the nodes that close
  bundles.
-/

namespace LayerNet.Term

open Relation

variable {g : Graph} {grouped more heads : List NodeId} {next stop : Option NodeId} {t rest : Term}
  {branches terms : List Term} {id m a b e x p : NodeId}

/-! ## Bundles -/

/-- A group whose branches hold no groups. -/
structure Bundle where
  merge : NodeId
  branches : List Term

/-- The nodes in the branches of a bundle. -/
def Bundle.ids (r : Bundle) : List NodeId := r.branches.flatMap Term.ids

/-- The nodes that are fed where the branches of a bundle begin. -/
def Bundle.entries (r : Bundle) : List NodeId :=
  r.branches.flatMap fun b => b.entries (some r.merge)

/-- A term that begins with no group. -/
def isLeaf : Term → Bool
  | done => true
  | node _ _ => true
  | _ => false

mutual

/-- The bundles at the beginning of a term. -/
def ready : Term → List Bundle
  | group m branches _ => if branches.all isLeaf then [⟨m, branches⟩] else readyAll branches
  | fan terms => readyAll terms
  | _ => []

/-- The bundles at the beginnings of several terms. -/
def readyAll : List Term → List Bundle
  | [] => []
  | t :: ts => ready t ++ readyAll ts

end

mutual

/-- The term in which each bundle has become the node that closes it. -/
def contract : Term → Term
  | group m branches rest =>
    if branches.all isLeaf then node m rest else group m (contractAll branches) rest
  | fan terms => fan (contractAll terms)
  | t => t

/-- Several terms in which each bundle has become the node that closes it. -/
def contractAll : List Term → List Term
  | [] => []
  | t :: ts => contract t :: contractAll ts

end

theorem readyAll_eq : ∀ ts : List Term, readyAll ts = ts.flatMap ready
  | [] => rfl
  | t :: ts => by rw [List.flatMap_cons, ← readyAll_eq ts]; rfl

theorem contractAll_eq : ∀ ts : List Term, contractAll ts = ts.map contract
  | [] => rfl
  | t :: ts => by rw [List.map_cons, ← contractAll_eq ts]; rfl

@[simp] theorem ready_done : ready done = [] := rfl

@[simp] theorem ready_node : (node id rest).ready = [] := rfl

theorem ready_group_of_leaves (h : ∀ b ∈ branches, b.isLeaf = true) :
    (group m branches rest).ready = [⟨m, branches⟩] :=
  if_pos (List.all_eq_true.2 h)

theorem ready_group_of_not (h : ¬∀ b ∈ branches, b.isLeaf = true) :
    (group m branches rest).ready = branches.flatMap ready := by
  rw [← readyAll_eq]
  exact if_neg fun hall => h (List.all_eq_true.1 hall)

@[simp] theorem ready_fan : (fan terms).ready = terms.flatMap ready := readyAll_eq terms

@[simp] theorem contract_done : contract done = done := rfl

@[simp] theorem contract_node : (node id rest).contract = node id rest := rfl

theorem contract_group_of_leaves (h : ∀ b ∈ branches, b.isLeaf = true) :
    (group m branches rest).contract = node m rest :=
  if_pos (List.all_eq_true.2 h)

theorem contract_group_of_not (h : ¬∀ b ∈ branches, b.isLeaf = true) :
    (group m branches rest).contract = group m (branches.map contract) rest := by
  rw [← contractAll_eq]
  exact if_neg fun hall => h (List.all_eq_true.1 hall)

@[simp] theorem contract_fan : (fan terms).contract = fan (terms.map contract) := by
  rw [← contractAll_eq]
  rfl

@[simp] theorem contract_eq_done_iff : t.contract = done ↔ t = done := by
  cases t with
  | done => simp
  | node id rest => simp
  | group m branches rest =>
    by_cases h : ∀ b ∈ branches, b.isLeaf = true
    · simp [contract_group_of_leaves h]
    · simp [contract_group_of_not h]
  | fan terms => simp

@[simp] theorem startsWithStep_contract : t.contract.startsWithStep = t.startsWithStep := by
  cases t with
  | done => simp
  | node id rest => simp
  | group m branches rest =>
    by_cases h : ∀ b ∈ branches, b.isLeaf = true
    · rw [contract_group_of_leaves h]
      rfl
    · rw [contract_group_of_not h]
      rfl
  | fan terms => rw [contract_fan]; rfl

/-- One node is fed where a term begins that begins with no group. -/
theorem exists_entries_eq (h : t.isLeaf = true) (hne : t ≠ done ∨ next.isSome = true) :
    ∃ e, t.entries next = [e] := by
  cases t with
  | done =>
    obtain ⟨m, rfl⟩ := Option.isSome_iff_exists.1 (hne.resolve_left fun h => h rfl)
    exact ⟨m, rfl⟩
  | node id rest => exact ⟨id, rfl⟩
  | group m branches rest => cases h
  | fan terms => cases h

/-- Several nodes are fed where a term begins that begins with a group. -/
theorem one_lt_length_entries (h : Laid g grouped next t) (hleaf : t.isLeaf = false) :
    1 < (t.entries next).length := by
  have hmany : ∀ (bs : List Term) (f : Term → List NodeId), (∀ b ∈ bs, ∃ e, e ∈ f b) →
      bs.length ≤ (bs.flatMap f).length := by
    intro bs f hbs
    induction bs with
    | nil => simp
    | cons b bs ih =>
      rw [List.forall_mem_cons] at hbs
      obtain ⟨e, he⟩ := hbs.1
      have hpos := List.length_pos_of_mem he
      have hrest := ih hbs.2
      rw [List.flatMap_cons, List.length_append, List.length_cons]
      omega
  cases h with
  | done => cases hleaf
  | node _ _ _ => cases hleaf
  | group _ _ hlen _ _ hbranches _ =>
    rw [entries_group]
    exact Nat.lt_of_lt_of_le hlen (hmany _ _ fun b hb =>
      exists_mem_entries (hbranches b hb).shaped (Or.inr rfl))
  | fan hlen hstep hterms =>
    rw [entries_fan]
    exact Nat.lt_of_lt_of_le hlen (hmany _ _ fun b hb =>
      exists_mem_entries (hterms b hb).shaped (Or.inl (ne_done_of_startsWithStep (hstep b hb))))

theorem ready_eq_nil_of_isLeaf (h : t.isLeaf = true) : t.ready = [] := by
  cases t with
  | done => exact ready_done
  | node id rest => exact ready_node
  | group m branches rest => cases h
  | fan terms => cases h

/-! ## What a round changes -/

/-- Each node goes into a bundle or stays in the term. -/
theorem ids_perm (h : Laid g grouped next t) :
    t.ids.Perm (t.ready.flatMap Bundle.ids ++ t.contract.ids) := by
  have hall : ∀ ts : List Term,
      (∀ t ∈ ts, t.ids.Perm (t.ready.flatMap Bundle.ids ++ t.contract.ids)) →
      (ts.flatMap ids).Perm
        ((ts.flatMap ready).flatMap Bundle.ids ++ (ts.map contract).flatMap ids) := by
    intro ts hts
    rw [List.flatMap_assoc, List.flatMap_map]
    exact (List.Perm.flatMap_left ts hts).trans (List.flatMap_append_perm ..).symm
  induction h with
  | done => simp
  | node _ _ _ _ => simp
  | @group _ _ m branches rest _ _ _ _ _ _ _ ih _ =>
    by_cases hleaf : ∀ b ∈ branches, b.isLeaf = true
    · rw [ready_group_of_leaves hleaf, contract_group_of_leaves hleaf]
      simp [Bundle.ids]
    · rw [ready_group_of_not hleaf, contract_group_of_not hleaf, ids_group, ids_group,
        ← List.append_assoc]
      exact (hall branches ih).append_right _
  | @fan _ terms _ _ _ ih =>
    rw [ready_fan, contract_fan, ids_fan, ids_fan]
    exact hall terms ih

/-- Each entry goes into a bundle or stays an entry, and the nodes that close bundles become
entries. -/
theorem entries_perm (h : Laid g grouped next t) :
    (t.entries next ++ t.ready.map Bundle.merge).Perm
      (t.ready.flatMap Bundle.entries ++ t.contract.entries next) := by
  have hall : ∀ (ts : List Term) (next : Option NodeId),
      (∀ t ∈ ts, (t.entries next ++ t.ready.map Bundle.merge).Perm
        (t.ready.flatMap Bundle.entries ++ t.contract.entries next)) →
      ((ts.flatMap fun t => t.entries next) ++ (ts.flatMap ready).map Bundle.merge).Perm
        ((ts.flatMap ready).flatMap Bundle.entries ++
          (ts.map contract).flatMap fun t => t.entries next) := by
    intro ts next hts
    rw [List.flatMap_assoc, List.flatMap_map, List.map_flatMap]
    exact ((List.flatMap_append_perm ..).trans (List.Perm.flatMap_left ts hts)).trans
      (List.flatMap_append_perm ..).symm
  induction h with
  | done => simp
  | node _ _ _ _ => simp
  | @group _ next m branches rest _ _ _ _ _ _ _ ih _ =>
    by_cases hleaf : ∀ b ∈ branches, b.isLeaf = true
    · rw [ready_group_of_leaves hleaf, contract_group_of_leaves hleaf]
      simp [Bundle.entries]
    · rw [ready_group_of_not hleaf, contract_group_of_not hleaf, entries_group, entries_group]
      exact hall branches (some m) ih
  | @fan _ terms _ _ _ ih =>
    rw [ready_fan, contract_fan, entries_fan, entries_fan]
    exact hall terms none ih

/-- The term after a round, when the nodes that close its bundles count as grouped. -/
theorem Laid.contract (h : Laid g grouped next t) (hsub : ∀ x ∈ grouped, x ∈ more)
    (hready : ∀ r ∈ t.ready, r.merge ∈ more) : Laid g more next t.contract := by
  induction h with
  | done => exact contract_done ▸ .done
  | node hsingle hflows hrest _ =>
    rw [contract_node]
    exact Laid.mono (.node hsingle hflows hrest) hsub
  | @group _ _ m branches rest hmerge harrive hlen hempty hflows hbranches hrest ih _ =>
    by_cases hleaf : ∀ b ∈ branches, b.isLeaf = true
    · rw [ready_group_of_leaves hleaf, List.forall_mem_singleton] at hready
      rw [contract_group_of_leaves hleaf]
      exact .node (fun hm => absurd hready hm) hflows hrest
    · rw [ready_group_of_not hleaf] at hready
      rw [contract_group_of_not hleaf]
      refine .group hmerge (by rw [harrive, List.length_map]) (by rwa [List.length_map]) ?_
        hflows ?_ hrest
      · rw [List.pairwise_map]
        simpa using hempty
      · rw [List.forall_mem_map]
        exact fun b hb => ih b hb hsub fun r hr => hready r (List.mem_flatMap.2 ⟨b, hb, hr⟩)
  | @fan _ terms hlen hstep _ ih =>
    rw [ready_fan] at hready
    rw [contract_fan]
    refine .fan (by rwa [List.length_map]) ?_ ?_
    · rw [List.forall_mem_map]
      simpa using hstep
    · rw [List.forall_mem_map]
      exact fun t ht => ih t ht hsub fun r hr => hready r (List.mem_flatMap.2 ⟨t, ht, hr⟩)

theorem Distinct.contract (h : Distinct next t) (hlaid : Laid g grouped next t) :
    Distinct next t.contract := by
  have hperm := (ids_perm hlaid).append_right next.toList
  rw [List.append_assoc] at hperm
  exact (hperm.nodup_iff.1 h).sublist (List.sublist_append_right ..)

/-- The bundles of a term are different groups of it. -/
theorem Laid.of_mem_ready (h : Laid g grouped next t) {r : Bundle} (hr : r ∈ t.ready) :
    g.Merging r.merge ∧ g.arrivals r.merge = r.branches.length ∧ 2 ≤ r.branches.length ∧
      ∀ b ∈ r.branches, b.isLeaf = true ∧ Laid g grouped (some r.merge) b := by
  induction h with
  | done => simp at hr
  | node _ _ _ _ => simp at hr
  | @group _ _ m branches rest hmerge harrive hlen _ _ hbranches _ ih _ =>
    by_cases hleaf : ∀ b ∈ branches, b.isLeaf = true
    · rw [ready_group_of_leaves hleaf, List.mem_singleton] at hr
      subst hr
      exact ⟨hmerge, harrive, hlen, fun b hb => ⟨hleaf b hb, hbranches b hb⟩⟩
    · rw [ready_group_of_not hleaf, List.mem_flatMap] at hr
      obtain ⟨b, hb, hr⟩ := hr
      exact ih b hb hr
  | fan _ _ _ ih =>
    rw [ready_fan, List.mem_flatMap] at hr
    obtain ⟨t, ht, hr⟩ := hr
    exact ih t ht hr

/-- The nodes that close bundles are left in the term. -/
theorem Laid.ready_sublist (h : Laid g grouped next t) :
    (t.ready.map Bundle.merge).Sublist t.contract.ids := by
  induction h with
  | done => simp
  | node _ _ _ _ => simp
  | @group _ _ m branches rest _ _ _ _ _ _ _ ih _ =>
    by_cases hleaf : ∀ b ∈ branches, b.isLeaf = true
    · rw [ready_group_of_leaves hleaf, contract_group_of_leaves hleaf, ids_node]
      exact List.singleton_sublist.2 List.mem_cons_self
    · rw [ready_group_of_not hleaf, contract_group_of_not hleaf, ids_group, List.map_flatMap,
        List.flatMap_map]
      exact (List.Sublist.flatMap_right _ ih).trans (List.sublist_append_left ..)
  | fan _ _ _ ih =>
    rw [ready_fan, contract_fan, ids_fan, List.map_flatMap, List.flatMap_map]
    exact List.Sublist.flatMap_right _ ih

/-- The entries of bundles are entries of the term. -/
theorem Laid.entries_sublist (h : Laid g grouped next t) :
    (t.ready.flatMap Bundle.entries).Sublist (t.entries next) := by
  induction h with
  | done => simp
  | node _ _ _ _ => simp
  | @group _ _ m branches rest _ _ _ _ _ _ _ ih _ =>
    by_cases hleaf : ∀ b ∈ branches, b.isLeaf = true
    · rw [ready_group_of_leaves hleaf, entries_group]
      simp [Bundle.entries]
    · rw [ready_group_of_not hleaf, entries_group, List.flatMap_assoc]
      exact List.Sublist.flatMap_right _ ih
  | fan _ _ _ ih =>
    rw [ready_fan, entries_fan, List.flatMap_assoc]
    exact List.Sublist.flatMap_right _ ih

theorem Laid.merge_mem_ids (h : Laid g grouped next t) {r : Bundle} (hr : r ∈ t.ready) :
    r.merge ∈ t.ids := by
  have hmem := h.ready_sublist.mem (List.mem_map_of_mem hr)
  exact (ids_perm h).mem_iff.2 (List.mem_append_right _ hmem)

theorem Laid.nodup_merges (h : Laid g grouped next t) (hd : Distinct next t) :
    (t.ready.map Bundle.merge).Nodup := (hd.contract h).nodup.sublist h.ready_sublist

theorem Laid.nodup_bundle_ids (h : Laid g grouped next t) (hd : Distinct next t) :
    (t.ready.flatMap Bundle.ids).Nodup :=
  ((ids_perm h).nodup_iff.1 hd.nodup).sublist (List.sublist_append_left ..)

/-! ## Where entries meet -/

/-- A bundle has one entry for each branch. -/
theorem Laid.length_entries (h : Laid g grouped next t) {r : Bundle} (hr : r ∈ t.ready) :
    r.entries.length = r.branches.length := by
  obtain ⟨-, -, -, hbranches⟩ := h.of_mem_ready hr
  have hone : ∀ b ∈ r.branches, (b.entries (some r.merge)).length = 1 := by
    intro b hb
    obtain ⟨e, he⟩ : ∃ e, b.entries (some r.merge) = [e] :=
      exists_entries_eq (hbranches b hb).1 (Or.inr rfl)
    rw [he, List.length_singleton]
  rw [Bundle.entries, List.length_flatMap, List.map_congr_left hone]
  simp

/-- A round leaves fewer entries. -/
theorem Laid.length_entries_contract_lt (h : Laid g grouped next t) (hready : t.ready ≠ []) :
    (t.contract.entries next).length < (t.entries next).length := by
  have htwice : ∀ rs : List Bundle, (∀ r ∈ rs, r ∈ t.ready) →
      2 * rs.length ≤ (rs.flatMap Bundle.entries).length := by
    intro rs hrs
    induction rs with
    | nil => simp
    | cons r rs ih =>
      rw [List.forall_mem_cons] at hrs
      have hmore := ih hrs.2
      have hone := (h.of_mem_ready hrs.1).2.2.1
      rw [← h.length_entries hrs.1] at hone
      rw [List.flatMap_cons, List.length_append, List.length_cons]
      omega
  have hlen := (entries_perm h).length_eq
  have hall := htwice t.ready fun _ hr => hr
  have hpos := List.length_pos_iff.2 hready
  simp only [List.length_append, List.length_map] at hlen
  omega

/-- The node that closes a bundle is reached by the entries of the bundle and by no other ones. -/
theorem Laid.mem_bundle_iff (hg : g.Acyclic) (h : Laid g grouped next t) (hd : Distinct next t)
    {r : Bundle} (hr : r ∈ t.ready) (he : e ∈ t.entries next) :
    ReflTransGen g.Flows e r.merge ↔ e ∈ r.entries := by
  constructor
  · intro hpath
    induction h with
    | done => simp at hr
    | node _ _ _ _ => simp at hr
    | @group _ next m branches rest hmerge harrive hlen hempty hflows hbranches hrest ih _ =>
      by_cases hleaf : ∀ b ∈ branches, b.isLeaf = true
      · rw [ready_group_of_leaves hleaf, List.mem_singleton] at hr
        subst hr
        rwa [entries_group] at he
      · rw [ready_group_of_not hleaf, List.mem_flatMap] at hr
        obtain ⟨b, hb, hr⟩ := hr
        have hlaid := Laid.group hmerge harrive hlen hempty hflows hbranches hrest
        have hmem := (hbranches b hb).merge_mem_ids hr
        exact ih b hb (hd.branch hb) hr (hlaid.mem_entries_of_reaches hg hd hb hmem he hpath)
    | @fan _ terms hlen hstep hterms ih =>
      rw [ready_fan, List.mem_flatMap] at hr
      obtain ⟨t, ht, hr⟩ := hr
      have hlaid := Laid.fan hlen hstep hterms
      have hmem := (hterms t ht).merge_mem_ids hr
      exact ih t ht (hd.term ht) hr (hlaid.mem_entries_of_reaches_fan hd ht hmem he hpath)
  · intro hmem
    obtain ⟨-, -, -, hbranches⟩ := h.of_mem_ready hr
    obtain ⟨b, hb, heb⟩ := List.mem_flatMap.1 hmem
    rcases mem_ids_of_mem_entries (hbranches b hb).2.shaped heb with hin | ⟨-, hm⟩
    · exact (hbranches b hb).2.to_next hin _ rfl
    · exact Option.some.inj hm ▸ .refl

/-- A term that begins with a group begins with a bundle. -/
theorem Laid.exists_mem_ready (h : Laid g grouped next t) (hleaf : t.isLeaf = false)
    (hnext : next ≠ none ∨ ∀ terms, t ≠ .fan terms) : ∃ r, r ∈ t.ready := by
  induction h with
  | done => cases hleaf
  | node _ _ _ _ => cases hleaf
  | @group _ _ m branches rest _ _ _ _ _ _ _ ih _ =>
    by_cases hleaf : ∀ b ∈ branches, b.isLeaf = true
    · exact ⟨⟨m, branches⟩, by rw [ready_group_of_leaves hleaf]; exact List.mem_singleton_self _⟩
    · rw [ready_group_of_not hleaf]
      push Not at hleaf
      obtain ⟨b, hb, hbleaf⟩ := hleaf
      obtain ⟨r, hr⟩ := ih b hb (by simpa using hbleaf) (Or.inl (by simp))
      exact ⟨r, List.mem_flatMap.2 ⟨b, hb, hr⟩⟩
  | fan _ _ _ _ => exact absurd rfl (hnext.resolve_left (by simp) _)

/-- A term that begins with no bundle is one term that begins with a node, or several of these that
never meet. -/
theorem Laid.exists_leaves (h : Laid g grouped next t) (hd : Distinct next t) (hne : t ≠ .done)
    (hready : t.ready = []) : ∃ bs : List Term, bs.flatMap ids = t.ids ∧
      (bs.flatMap fun b => b.entries next) = t.entries next ∧ (bs.length ≤ 1 ∨ next = none) ∧
      ∀ b ∈ bs, b.isLeaf = true ∧ b ≠ .done ∧ Laid g grouped next b ∧ Distinct next b := by
  by_cases hleaf : t.isLeaf = true
  · exact ⟨[t], by simp, by simp, Or.inl (by simp), by simpa using ⟨hleaf, hne, h, hd⟩⟩
  have hnone : ¬∃ r, r ∈ t.ready := by simp [hready]
  cases h with
  | done => exact absurd rfl hne
  | node _ _ _ => exact absurd rfl hleaf
  | group hmerge harrive hlen hempty hflows hbranches hrest =>
    have hlaid := Laid.group hmerge harrive hlen hempty hflows hbranches hrest
    exact absurd (hlaid.exists_mem_ready rfl (Or.inr fun terms => by simp)) hnone
  | @fan _ terms hlen hstep hterms =>
    refine ⟨terms, ids_fan.symm, entries_fan.symm, Or.inr rfl, fun b hb => ?_⟩
    refine ⟨?_, ne_done_of_startsWithStep (hstep b hb), hterms b hb, hd.term hb⟩
    by_contra hbleaf
    have hfan : ∀ ts, b ≠ .fan ts := by
      rintro ts rfl
      exact absurd (hstep _ hb) (by simp [startsWithStep])
    obtain ⟨r, hr⟩ := (hterms b hb).exists_mem_ready (by simpa using hbleaf) (Or.inr hfan)
    exact hnone ⟨r, by rw [ready_fan]; exact List.mem_flatMap.2 ⟨b, hb, hr⟩⟩

/-- A node that two entries reach comes after a bundle. -/
theorem Laid.exists_bundle (hg : g.Acyclic) (h : Laid g grouped next t) (hd : Distinct next t)
    (ha : a ∈ t.entries next) (hb : b ∈ t.entries next) (hab : a ≠ b) (hp : p ∈ t.ids)
    (hap : ReflTransGen g.Flows a p) (hbp : ReflTransGen g.Flows b p) :
    ∃ r ∈ t.ready, ReflTransGen g.Flows r.merge p := by
  induction h with
  | done => exact absurd hp List.not_mem_nil
  | node _ _ _ _ =>
    rw [entries_node, List.mem_singleton] at ha hb
    exact absurd (ha.trans hb.symm) hab
  | @group _ next m branches rest hmerge harrive hlen hempty hflows hbranches hrest ih _ =>
    have hlaid := Laid.group hmerge harrive hlen hempty hflows hbranches hrest
    rw [ids_group, List.mem_append, List.mem_flatMap] at hp
    rcases hp with ⟨c, hc, hp⟩ | hp
    · have hac := hlaid.mem_entries_of_reaches hg hd hc hp ha hap
      have hbc := hlaid.mem_entries_of_reaches hg hd hc hp hb hbp
      obtain ⟨r, hr, hpath⟩ := ih c hc (hd.branch hc) hac hbc hp
      have hnot : ¬∀ b ∈ branches, b.isLeaf = true := fun hleaf => by
        rw [ready_eq_nil_of_isLeaf (hleaf c hc)] at hr
        exact absurd hr List.not_mem_nil
      rw [ready_group_of_not hnot]
      exact ⟨r, List.mem_flatMap.2 ⟨c, hc, hr⟩, hpath⟩
    · -- the node comes after the whole group, which begins with some bundle
      obtain ⟨r, hr⟩ := hlaid.exists_mem_ready rfl (Or.inr fun terms => by simp)
      have hmp : ReflTransGen g.Flows m p := by
        rcases List.mem_cons.1 hp with rfl | hp
        · exact .refl
        · obtain ⟨e, he, hpath⟩ := hrest.exists_entry hp
          exact .head ((hflows e).2 he) hpath
      refine ⟨r, hr, ReflTransGen.trans ?_ hmp⟩
      by_cases hleaf : ∀ b ∈ branches, b.isLeaf = true
      · rw [ready_group_of_leaves hleaf, List.mem_singleton] at hr
        subst hr
        exact .refl
      · rw [ready_group_of_not hleaf, List.mem_flatMap] at hr
        obtain ⟨c, hc, hr⟩ := hr
        exact (hbranches c hc).to_next ((hbranches c hc).merge_mem_ids hr) m rfl
  | @fan _ terms hlen hstep hterms ih =>
    have hlaid := Laid.fan hlen hstep hterms
    rw [ids_fan, List.mem_flatMap] at hp
    obtain ⟨c, hc, hp⟩ := hp
    have hac := hlaid.mem_entries_of_reaches_fan hd hc hp ha hap
    have hbc := hlaid.mem_entries_of_reaches_fan hd hc hp hb hbp
    obtain ⟨r, hr, hpath⟩ := ih c hc (hd.term hc) hac hbc hp
    rw [ready_fan]
    exact ⟨r, List.mem_flatMap.2 ⟨c, hc, hr⟩, hpath⟩

/-! ## The points of a round -/

/-- The heads that reach the node that closes a bundle are the entries of the bundle. -/
theorem Laid.meeting_heads_perm (hg : g.Acyclic) (h : Laid g grouped next t) (hd : Distinct next t)
    (hne : t ≠ .done) (hheads : heads.Perm (t.entries next)) {r : Bundle} (hr : r ∈ t.ready) :
    (heads.filter fun e => r.merge ∈ g.reachableFrom e next).Perm r.entries := by
  have hnodup : (t.entries next).Nodup := nodup_entries h.shaped hd.nodup
  have hbundle : r.entries.Nodup := (List.nodup_flatMap.1 (hnodup.sublist h.entries_sublist)).1 r hr
  refine (List.perm_ext_iff_of_nodup ((hheads.nodup_iff.2 hnodup).filter _) hbundle).2 ?_
  intro e
  rw [List.mem_filter, decide_eq_true_eq, Graph.mem_reachableFrom, hheads.mem_iff]
  constructor
  · rintro ⟨he, hpath⟩
    rw [h.leads_iff hg hd (mem_ids_of_mem_entries_of_ne h.shaped hne he)] at hpath
    exact (h.mem_bundle_iff hg hd hr he).1 hpath.2
  · intro he
    have hentry := h.entries_sublist.mem (List.mem_flatMap.2 ⟨r, hr, he⟩)
    refine ⟨hentry, ?_⟩
    rw [h.leads_iff hg hd (mem_ids_of_mem_entries_of_ne h.shaped hne hentry)]
    exact ⟨h.merge_mem_ids hr, (h.mem_bundle_iff hg hd hr hentry).2 he⟩

theorem Laid.two_le_length_meeters (hg : g.Acyclic) (h : Laid g grouped next t)
    (hd : Distinct next t) (hne : t ≠ .done) (hheads : heads.Perm (t.entries next)) {r : Bundle}
    (hr : r ∈ t.ready) : 2 ≤ (g.meeters heads next r.merge).length := by
  rw [Graph.length_meeters, (h.meeting_heads_perm hg hd hne hheads hr).length_eq,
    h.length_entries hr]
  exact (h.of_mem_ready hr).2.2.1

/-- A point where heads meet comes after a bundle. -/
theorem Laid.exists_bundle_of_meeters (hg : g.Acyclic) (h : Laid g grouped next t)
    (hd : Distinct next t) (hne : t ≠ .done) (hheads : heads.Perm (t.entries next))
    (hp : 2 ≤ (g.meeters heads next p).length) :
    p ∈ t.ids ∧ ∃ r ∈ t.ready, ReflTransGen g.Flows r.merge p := by
  rw [Graph.length_meeters] at hp
  have hmem : ∀ e ∈ heads.filter (fun e => p ∈ g.reachableFrom e next),
      e ∈ t.entries next ∧ p ∈ t.ids ∧ ReflTransGen g.Flows e p := by
    intro e he
    rw [List.mem_filter, decide_eq_true_eq, Graph.mem_reachableFrom, hheads.mem_iff] at he
    have hin := mem_ids_of_mem_entries_of_ne h.shaped hne he.1
    exact ⟨he.1, (h.leads_iff hg hd hin).1 he.2⟩
  have hnodup : heads.Nodup := hheads.nodup_iff.2 (nodup_entries h.shaped hd.nodup)
  have hdiff := hnodup.filter fun e => p ∈ g.reachableFrom e next
  match hl : heads.filter (fun e => p ∈ g.reachableFrom e next), hp with
  | a :: b :: _, _ =>
    rw [hl] at hmem hdiff
    obtain ⟨ha, hin, hap⟩ := hmem a (by simp)
    obtain ⟨hb, -, hbp⟩ := hmem b (by simp)
    have hab : a ≠ b := fun e => by simp [e] at hdiff
    exact ⟨hin, h.exists_bundle hg hd ha hb hab hin hap hbp⟩

/-- No bundle comes after another one. -/
theorem Laid.bundle_eq_of_reaches (hg : g.Acyclic) (h : Laid g grouped next t)
    (hd : Distinct next t) {r r' : Bundle} (hr : r ∈ t.ready) (hr' : r' ∈ t.ready)
    (hpath : ReflTransGen g.Flows r'.merge r.merge) : r' = r := by
  have hnodup : (t.entries next).Nodup := nodup_entries h.shaped hd.nodup
  have hpos : 0 < r'.entries.length := by
    rw [h.length_entries hr']
    exact Nat.lt_of_lt_of_le Nat.zero_lt_two (h.of_mem_ready hr').2.2.1
  obtain ⟨e, he⟩ := List.exists_mem_of_length_pos hpos
  have hentry := h.entries_sublist.mem (List.mem_flatMap.2 ⟨r', hr', he⟩)
  have hreach := ((h.mem_bundle_iff hg hd hr' hentry).2 he).trans hpath
  exact eq_of_mem_flatMap (hnodup.sublist h.entries_sublist) hr' hr he
    ((h.mem_bundle_iff hg hd hr hentry).1 hreach)

/-- The points at which heads first meet are the nodes that close the bundles. -/
theorem Laid.mem_firstMeetings_iff (hg : g.Acyclic) (h : Laid g grouped next t)
    (hd : Distinct next t) (hne : t ≠ .done) (hheads : heads.Perm (t.entries next))
    {c : MeetingPoint} : c ∈ g.firstMeetings heads next ↔
      ∃ r ∈ t.ready, c = ⟨r.merge, g.meeters heads next r.merge⟩ := by
  rw [LayerNet.Graph.mem_firstMeetings_iff]
  constructor
  · rintro ⟨hplaces, hc, hno⟩
    rw [hplaces] at hc
    obtain ⟨hp, r, hr, hpath⟩ := h.exists_bundle_of_meeters hg hd hne hheads hc
    suffices hpoint : r.merge = c.point by
      refine ⟨r, hr, ?_⟩
      rw [hpoint, ← hplaces]
    -- otherwise the heads of the bundle would meet before the point
    by_contra hne'
    have hlen := h.two_le_length_meeters hg hd hne hheads hr
    have hbefore := (h.leads_iff hg hd (h.merge_mem_ids hr)).2 ⟨hp, hpath⟩
    refine hno r.merge hne' hlen ?_ hbefore
    obtain ⟨i, hi⟩ := List.exists_mem_of_length_pos (Nat.lt_of_lt_of_le Nat.zero_lt_two hlen)
    obtain ⟨e, he, her⟩ := Graph.mem_meeters.1 hi
    refine ⟨i, ?_, hi⟩
    rw [hplaces, Graph.mem_meeters]
    exact ⟨e, he, her.trans hbefore⟩
  · rintro ⟨r, hr, rfl⟩
    refine ⟨rfl, h.two_le_length_meeters hg hd hne hheads hr, ?_⟩
    intro other hother hc _ hpath
    obtain ⟨hp, r', hr', hbefore⟩ := h.exists_bundle_of_meeters hg hd hne hheads hc
    have hback := ((h.leads_iff hg hd hp).1 hpath).2
    have hsame := h.bundle_eq_of_reaches hg hd hr hr' (hbefore.trans hback)
    rw [hsame] at hbefore
    exact hother (hg.eq_of_leads (Graph.leads_none_iff.2 hback) (Graph.leads_none_iff.2 hbefore))

end LayerNet.Term
