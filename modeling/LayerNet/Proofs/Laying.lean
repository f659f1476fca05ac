import LayerNet.Proofs.Accounting
import LayerNet.Proofs.Runs
import LayerNet.Proofs.Terms

/-!
# Terms in a graph

`Term.Laid g grouped next t` says that the term `t` describes what lies in the graph `g` from some
place on, up to the node `next`.  The inputs of the nodes `grouped` are in groups already, so these
nodes may have any number of them.

What follows a place is closed (`Laid.reaches`), all of it leads to the end (`Laid.to_next`), and
all of it follows what is fed where the term begins (`Laid.exists_entry`).  In a graph without
cycles, a branch of a group is therefore entered from its own beginning only
(`Laid.mem_entries_of_reaches`).

`Shaped.laid` says that a term is laid out in every graph that has its edges and the right numbers
of inputs.
-/

namespace LayerNet

/-- A plain node with one input at most. -/
def Graph.Single (g : Graph) (id : NodeId) : Prop :=
  ∃ n, g.node? id = some n ∧ n.isSpecial = false ∧ (g.predecessors id).length ≤ 1

namespace Term

open Relation

variable {g : Graph} {grouped more : List NodeId} {next : Option NodeId} {t rest : Term}
  {branches terms : List Term} {id m a b e x p : NodeId} {inside : Bool}

/-- What lies in a graph from some place on is the given term. -/
inductive Laid (g : Graph) : List NodeId → Option NodeId → Term → Prop
  | done {grouped : List NodeId} {next : Option NodeId} : Laid g grouped next done
  | node {grouped : List NodeId} {next : Option NodeId} {id : NodeId} {rest : Term} :
    (id ∉ grouped → g.Single id) → (∀ b, g.Flows id b ↔ b ∈ rest.entries next) →
    Laid g [] next rest → Laid g grouped next (node id rest)
  | group {grouped : List NodeId} {next : Option NodeId} {m : NodeId} {branches : List Term}
    {rest : Term} :
    g.Merging m → g.arrivals m = branches.length → 2 ≤ branches.length →
    (branches.Pairwise fun a b => a ≠ .done ∨ b ≠ .done) →
    (∀ b, g.Flows m b ↔ b ∈ rest.entries next) → (∀ b ∈ branches, Laid g grouped (some m) b) →
    Laid g [] next rest → Laid g grouped next (group m branches rest)
  | fan {grouped : List NodeId} {terms : List Term} :
    2 ≤ terms.length → (∀ t ∈ terms, t.startsWithStep = true) →
    (∀ t ∈ terms, Laid g grouped none t) → Laid g grouped none (fan terms)

theorem Laid.mono (h : Laid g grouped next t) (hsub : ∀ x ∈ grouped, x ∈ more) :
    Laid g more next t := by
  induction h with
  | done => exact .done
  | node hsingle hflows hrest _ =>
    exact .node (fun hid => hsingle fun h => hid (hsub _ h)) hflows hrest
  | group hmerge harrive hlen hempty hflows _ hrest ih _ =>
    exact .group hmerge harrive hlen hempty hflows (fun b hb => ih b hb hsub) hrest
  | fan hlen hstep _ ih => exact .fan hlen hstep fun t ht => ih t ht hsub

theorem Laid.shaped (h : Laid g grouped next t) : Shaped next.isSome t := by
  induction h with
  | done => exact .done
  | node _ _ _ ih => exact .node ih
  | group _ _ hlen hempty _ _ _ ih ihrest => exact .group hlen hempty ih ihrest
  | fan hlen hstep _ ih => exact .fan hlen hstep ih

/-! ## Paths -/

/-- An edge from a node of the term stays inside or leads to the end. -/
theorem Laid.flows (h : Laid g grouped next t) (ha : a ∈ t.ids) (hab : g.Flows a b) :
    b ∈ t.ids ∨ next = some b := by
  induction h with
  | done => exact absurd ha List.not_mem_nil
  | node _ hflows hrest ih =>
    rw [ids_node, List.mem_cons] at ha ⊢
    rcases ha with rfl | ha
    · have hb := mem_ids_of_mem_entries hrest.shaped ((hflows b).1 hab)
      exact hb.imp Or.inr And.right
    · exact (ih ha).imp_left Or.inr
  | group _ _ _ _ hflows _ hrest ih ihrest =>
    rw [ids_group, List.mem_append, List.mem_flatMap, List.mem_cons] at ha ⊢
    rcases ha with ⟨c, hc, ha⟩ | rfl | ha
    · rcases ih c hc ha with hb | hb
      · exact Or.inl (Or.inl ⟨c, hc, hb⟩)
      · exact Or.inl (Or.inr (Or.inl (Option.some.inj hb).symm))
    · have hb := mem_ids_of_mem_entries hrest.shaped ((hflows b).1 hab)
      exact hb.imp (fun hb => Or.inr (Or.inr hb)) And.right
    · exact (ihrest ha).imp_left fun hb => Or.inr (Or.inr hb)
  | fan _ _ _ ih =>
    rw [ids_fan, List.mem_flatMap] at ha ⊢
    obtain ⟨c, hc, ha⟩ := ha
    rcases ih c hc ha with hb | hb
    · exact Or.inl ⟨c, hc, hb⟩
    · cases hb

/-- A path from a node of the term stays inside or passes the end. -/
theorem Laid.reaches (h : Laid g grouped next t) (ha : a ∈ t.ids)
    (hap : ReflTransGen g.Flows a p) :
    p ∈ t.ids ∨ ∃ n, next = some n ∧ ReflTransGen g.Flows n p := by
  induction hap with
  | refl => exact Or.inl ha
  | @tail x y _ hxy ih =>
    rcases ih with hx | ⟨n, hn, hpath⟩
    · exact (h.flows hx hxy).imp_right fun hy => ⟨y, hy, .refl⟩
    · exact Or.inr ⟨n, hn, hpath.tail hxy⟩

/-- What feeds the rest of a term leads to the end, if all of the rest does. -/
theorem Laid.to_next_of_feeds (h : Laid g grouped next t)
    (hflows : ∀ b, g.Flows a b ↔ b ∈ t.entries next)
    (hin : ∀ x ∈ t.ids, ∀ n, next = some n → ReflTransGen g.Flows x n) (n : NodeId)
    (hn : next = some n) : ReflTransGen g.Flows a n := by
  obtain ⟨e, he⟩ : ∃ e, e ∈ t.entries next :=
    exists_mem_entries h.shaped (Or.inr (by rw [hn]; rfl))
  have hae := ReflTransGen.single ((hflows e).2 he)
  rcases mem_ids_of_mem_entries h.shaped he with hmem | ⟨-, hnext⟩
  · exact hae.trans (hin e hmem n hn)
  · rw [hn, Option.some.injEq] at hnext
    exact hnext ▸ hae

/-- All nodes of a term lead to what follows it. -/
theorem Laid.to_next (h : Laid g grouped next t) (hx : x ∈ t.ids) (n : NodeId)
    (hn : next = some n) : ReflTransGen g.Flows x n := by
  induction h generalizing x n with
  | done => exact absurd hx List.not_mem_nil
  | node _ hflows hrest ih =>
    rw [ids_node, List.mem_cons] at hx
    rcases hx with rfl | hx
    · exact hrest.to_next_of_feeds hflows (fun y hy n hn => ih hy n hn) n hn
    · exact ih hx n hn
  | group _ _ _ _ hflows _ hrest ih ihrest =>
    have hm := hrest.to_next_of_feeds hflows (fun y hy n hn => ihrest hy n hn) n hn
    rw [ids_group, List.mem_append, List.mem_flatMap, List.mem_cons] at hx
    rcases hx with ⟨c, hc, hx⟩ | rfl | hx
    · exact (ih c hc hx _ rfl).trans hm
    · exact hm
    · exact ihrest hx n hn
  | fan _ _ _ _ => cases hn

/-- All nodes of a term follow what is fed where it begins. -/
theorem Laid.exists_entry (h : Laid g grouped next t) (hx : x ∈ t.ids) :
    ∃ e ∈ t.entries next, ReflTransGen g.Flows e x := by
  induction h with
  | done => exact absurd hx List.not_mem_nil
  | @node _ _ id _ _ hflows _ ih =>
    rw [ids_node, List.mem_cons] at hx
    refine ⟨id, List.mem_singleton_self id, ?_⟩
    rcases hx with rfl | hx
    · exact .refl
    · obtain ⟨e, he, hpath⟩ := ih hx
      exact .head ((hflows e).2 he) hpath
  | @group _ _ m branches _ _ _ hlen _ hflows hbranches _ ih ihrest =>
    simp only [entries_group, List.mem_flatMap]
    obtain ⟨e, hentry, hem⟩ : ∃ e, (∃ b ∈ branches, e ∈ b.entries (some m)) ∧
        ReflTransGen g.Flows e m := by
      obtain ⟨b, hb⟩ := List.exists_mem_of_length_pos (Nat.lt_of_lt_of_le Nat.zero_lt_two hlen)
      obtain ⟨e, he⟩ := exists_mem_entries (hbranches b hb).shaped
        (Or.inr rfl : _ ∨ (some m).isSome = true)
      refine ⟨e, ⟨b, hb, he⟩, ?_⟩
      rcases mem_ids_of_mem_entries (hbranches b hb).shaped he with hmem | ⟨-, hm⟩
      · exact (hbranches b hb).to_next hmem m rfl
      · exact Option.some.inj hm ▸ .refl
    rw [ids_group, List.mem_append, List.mem_flatMap, List.mem_cons] at hx
    rcases hx with ⟨c, hc, hx⟩ | rfl | hx
    · obtain ⟨e, he, hpath⟩ := ih c hc hx
      exact ⟨e, ⟨c, hc, he⟩, hpath⟩
    · exact ⟨e, hentry, hem⟩
    · obtain ⟨e', he', hpath⟩ := ihrest hx
      exact ⟨e, hentry, hem.trans (.head ((hflows e').2 he') hpath)⟩
  | fan _ _ _ ih =>
    rw [ids_fan, List.mem_flatMap] at hx
    obtain ⟨c, hc, hx⟩ := hx
    obtain ⟨e, he, hpath⟩ := ih c hc hx
    rw [entries_fan]
    exact ⟨e, List.mem_flatMap.2 ⟨c, hc, he⟩, hpath⟩

/-! ## Terms without repetitions -/

/-- The nodes of a term are different, and different from what follows it. -/
def Distinct (next : Option NodeId) (t : Term) : Prop := (t.ids ++ next.toList).Nodup

theorem Distinct.nodup (h : Distinct next t) : t.ids.Nodup :=
  h.sublist (List.sublist_append_left ..)

theorem Distinct.ne_next (h : Distinct next t) (hx : x ∈ t.ids) : some x ≠ next := by
  rintro rfl
  exact (List.nodup_append.1 h).2.2 x hx x (by simp) rfl

theorem Distinct.node_rest (h : Distinct next (node id rest)) :
    id ∉ rest.ids ∧ Distinct next rest := by
  rw [Distinct, ids_node, List.cons_append, List.nodup_cons] at h
  exact ⟨fun hid => h.1 (List.mem_append_left _ hid), h.2⟩

theorem Distinct.branch (h : Distinct next (group m branches rest)) {b : Term} (hb : b ∈ branches) :
    Distinct (some m) b := by
  have hsub : b.ids.Sublist (branches.flatMap ids) :=
    List.sublist_flatten_of_mem (List.mem_map_of_mem hb)
  refine h.nodup.sublist ?_
  rw [ids_group]
  exact hsub.append (List.singleton_sublist.2 List.mem_cons_self)

theorem Distinct.term (h : Distinct none (fan terms)) (ht : t ∈ terms) : Distinct none t := by
  have hsub : t.ids.Sublist (terms.flatMap ids) :=
    List.sublist_flatten_of_mem (List.mem_map_of_mem ht)
  rw [Distinct, ids_fan] at h
  exact h.sublist (hsub.append (List.Sublist.refl _))

/-- Where no element repeats, it comes from one list only. -/
theorem eq_of_mem_flatMap {α : Type} {f : α → List NodeId} {l : List α} (h : (l.flatMap f).Nodup)
    {u v : α} (hu : u ∈ l) (hv : v ∈ l) (hxu : x ∈ f u) (hxv : x ∈ f v) : u = v := by
  induction l with
  | nil => exact absurd hu List.not_mem_nil
  | cons w l ih =>
    rw [List.flatMap_cons, List.nodup_append] at h
    rw [List.mem_cons] at hu hv
    rcases hu with rfl | hu <;> rcases hv with rfl | hv
    · rfl
    · exact absurd rfl (h.2.2 x hxu x (List.mem_flatMap.2 ⟨v, hv, hxv⟩))
    · exact absurd rfl (h.2.2 x hxv x (List.mem_flatMap.2 ⟨u, hu, hxu⟩))
    · exact ih h.2.1 hu hv

/-- A branch of a group is entered from its own beginning only. -/
theorem Laid.mem_entries_of_reaches (hg : g.Acyclic)
    (h : Laid g grouped next (.group m branches rest))
    (hd : Distinct next (.group m branches rest)) {b : Term} (hb : b ∈ branches) (hp : p ∈ b.ids)
    (he : e ∈ (Term.group m branches rest).entries next) (hep : ReflTransGen g.Flows e p) :
    e ∈ b.entries (some m) := by
  cases h with
  | group _ _ _ _ _ hbranches _ =>
    -- the merging node comes after the branch
    have hback : ¬ReflTransGen g.Flows m p := fun hmp => by
      have hpm := (hbranches b hb).to_next hp m rfl
      rcases reflTransGen_iff_eq_or_transGen.1 hpm with rfl | hpm
      · exact (hd.branch hb).ne_next hp rfl
      · exact hg p (hpm.trans_left hmp)
    rw [entries_group, List.mem_flatMap] at he
    obtain ⟨c, hc, he⟩ := he
    rcases mem_ids_of_mem_entries (hbranches c hc).shaped he with hmem | ⟨-, hm⟩
    · rcases (hbranches c hc).reaches hmem hep with hpc | ⟨n, hn, hnp⟩
      · rwa [← eq_of_mem_flatMap (nodup_group hd.nodup).1 hc hb hpc hp]
      · exact absurd (Option.some.inj hn ▸ hnp) hback
    · exact absurd (Option.some.inj hm ▸ hep) hback

theorem Laid.mem_entries_of_reaches_fan (h : Laid g grouped none (.fan terms))
    (hd : Distinct none (.fan terms)) (ht : t ∈ terms) (hp : p ∈ t.ids)
    (he : e ∈ (Term.fan terms).entries none) (hep : ReflTransGen g.Flows e p) :
    e ∈ t.entries none := by
  cases h with
  | fan _ _ hterms =>
    rw [entries_fan, List.mem_flatMap] at he
    obtain ⟨c, hc, he⟩ := he
    rcases mem_ids_of_mem_entries (hterms c hc).shaped he with hmem | ⟨-, hnone⟩
    · rcases (hterms c hc).reaches hmem hep with hpc | ⟨n, hn, -⟩
      · have hids := hd.nodup
        rw [ids_fan] at hids
        rwa [← eq_of_mem_flatMap hids hc ht hpc hp]
      · cases hn
    · cases hnone

/-- Paths that avoid the end of a term are the paths inside it. -/
theorem Laid.leads_iff (hg : g.Acyclic) (h : Laid g grouped next t) (hd : Distinct next t)
    (ha : a ∈ t.ids) : g.Leads next a p ↔ p ∈ t.ids ∧ ReflTransGen g.Flows a p := by
  constructor
  · intro hap
    have hpath := Graph.leads_none_iff.1 hap.weaken
    refine ⟨?_, hpath⟩
    refine hap.induction (motive := fun p => p ∈ t.ids) ha ?_
    intro x y _ hx hxy hy
    exact (h.flows hx hxy).resolve_right fun e => hy e.symm
  · rintro ⟨hp, hap⟩
    induction hap with
    | refl => exact .refl (hd.ne_next ha)
    | @tail x y hax hxy ih =>
      have hx : x ∈ t.ids := by
        refine (h.reaches ha hax).resolve_right ?_
        rintro ⟨n, hn, hnx⟩
        have hny := hnx.tail hxy
        rcases reflTransGen_iff_eq_or_transGen.1 hny with rfl | hny
        · exact hd.ne_next hp hn.symm
        · exact hg n (hny.trans_left (h.to_next hp n hn))
      exact (ih hx).tail hxy (hd.ne_next hp)

/-! ## Terms laid out in a graph -/

/-- The edges from the nodes of a term are those of the term. -/
def Follows (g : Graph) (next : Option NodeId) (t : Term) : Prop :=
  ∀ a ∈ t.ids, ∀ b, g.Flows a b ↔ (a, b) ∈ t.edges next

/-- The inputs of a node are as many as the edges that it waits for. -/
def Counted (g : Graph) (e : NodeId × Nat) : Prop :=
  (e.2 = 1 → g.Single e.1) ∧ (1 < e.2 → g.Merging e.1 ∧ g.arrivals e.1 = e.2)

theorem Follows.flows (h : Follows g next (node id rest)) (hnodup : (node id rest).ids.Nodup)
    (hrest : Shaped inside rest) : g.Flows id b ↔ b ∈ rest.entries next := by
  rw [h id (by simp), edges_node, List.mem_append, List.mem_map]
  constructor
  · rintro (⟨c, hc, he⟩ | hab)
    · cases he
      exact hc
    · exact absurd (mem_ids_of_mem_edges hrest hab).1 (List.nodup_cons.1 hnodup).1
  · exact fun hb => Or.inl ⟨b, hb, rfl⟩

theorem Follows.tail (h : Follows g next (node id rest)) (hnodup : (node id rest).ids.Nodup) :
    Follows g next rest := by
  intro a ha b
  rw [h a (List.mem_cons_of_mem _ ha), edges_node, List.mem_append, List.mem_map]
  refine or_iff_right ?_
  rintro ⟨c, -, he⟩
  cases he
  exact (List.nodup_cons.1 hnodup).1 ha

/-- A group without its branches is the node that closes it, followed by the rest. -/
theorem Follows.behind (h : Follows g next (group m branches rest))
    (hnodup : (group m branches rest).ids.Nodup) (hshape : ∀ c ∈ branches, Shaped true c) :
    Follows g next (node m rest) := by
  intro a ha b
  rw [h a (by rw [ids_group]; exact List.mem_append_right _ ha), edges_group, List.mem_append,
    List.mem_flatMap, edges_node]
  refine or_iff_right ?_
  rintro ⟨c, hc, hab⟩
  exact (nodup_group hnodup).2.2 c hc a ha (mem_ids_of_mem_edges (hshape c hc) hab).1

theorem Follows.branch (h : Follows g next (group m branches rest))
    (hnodup : (group m branches rest).ids.Nodup) (hshape : ∀ c ∈ branches, Shaped true c)
    (hrest : Shaped inside rest) {c : Term} (hc : c ∈ branches) : Follows g (some m) c := by
  intro a ha b
  obtain ⟨hbranches, -, hapart⟩ := nodup_group hnodup
  have hmem : a ∈ (group m branches rest).ids := by
    rw [ids_group]
    exact List.mem_append_left _ (List.mem_flatMap.2 ⟨c, hc, ha⟩)
  have hbehind : a ∉ m :: rest.ids := fun hback => hapart c hc a hback ha
  rw [h a hmem, edges_group, List.mem_append, List.mem_append, List.mem_flatMap, List.mem_map]
  constructor
  · rintro (⟨d, hd, hab⟩ | ⟨d, -, he⟩ | hab)
    · rwa [eq_of_mem_flatMap hbranches hc hd ha (mem_ids_of_mem_edges (hshape d hd) hab).1]
    · cases he
      exact absurd List.mem_cons_self hbehind
    · exact absurd (List.mem_cons_of_mem _ (mem_ids_of_mem_edges hrest hab).1) hbehind
  · exact fun hab => Or.inl ⟨c, hc, hab⟩

theorem Follows.term (h : Follows g none (fan terms)) (hnodup : (fan terms).ids.Nodup)
    (hshape : ∀ c ∈ terms, Shaped false c) {c : Term} (hc : c ∈ terms) : Follows g none c := by
  intro a ha b
  rw [ids_fan] at hnodup
  rw [h a (by rw [ids_fan]; exact List.mem_flatMap.2 ⟨c, hc, ha⟩), edges_fan, List.mem_flatMap]
  constructor
  · rintro ⟨d, hd, hab⟩
    rwa [eq_of_mem_flatMap hnodup hc hd ha (mem_ids_of_mem_edges (hshape d hd) hab).1]
  · exact fun hab => ⟨c, hc, hab⟩

/-- A term is laid out in a graph that has its edges and the right numbers of inputs. -/
theorem Shaped.laid (hshape : Shaped inside t) (hnext : inside = false → next = none)
    (h : Follows g next t) (hnodup : t.ids.Nodup) (hcount : ∀ e ∈ t.arities, Counted g e) :
    Laid g [] next t := by
  induction hshape generalizing next with
  | done => exact .done
  | @node _ id rest hrest ih =>
    rw [arities, List.forall_mem_cons] at hcount
    have hflows := fun b => h.flows (b := b) hnodup hrest
    exact .node (fun _ => hcount.1.1 rfl) hflows
      (ih hnext (h.tail hnodup) (List.nodup_cons.1 hnodup).2 hcount.2)
  | @group _ m branches rest hlen hempty hshape hrest ih ihrest =>
    obtain ⟨hbranches, hbehind, -⟩ := nodup_group hnodup
    have hafter := h.behind hnodup hshape
    simp only [arities_group, List.forall_mem_append, List.forall_mem_cons, List.mem_flatMap]
      at hcount
    obtain ⟨hinside, hclose, hrests⟩ := hcount
    obtain ⟨hmerging, harrive⟩ := hclose.2 hlen
    have hflows := fun b => hafter.flows (b := b) hbehind hrest
    refine .group hmerging harrive hlen hempty hflows ?_
      (ihrest hnext (hafter.tail hbehind) (List.nodup_cons.1 hbehind).2 hrests)
    intro c hc
    exact ih c hc (by simp) (h.branch hnodup hshape hrest hc)
      ((List.nodup_flatMap.1 hbranches).1 c hc) fun e he => hinside e ⟨c, hc, he⟩
  | @fan terms hlen hstep hshape ih =>
    obtain rfl := hnext rfl
    rw [arities_fan] at hcount
    refine .fan hlen hstep ?_
    intro c hc
    have hids := hnodup
    rw [ids_fan] at hids
    exact ih c hc (fun _ => rfl) (h.term hnodup hshape hc) ((List.nodup_flatMap.1 hids).1 c hc)
      fun e he => hcount e (List.mem_flatMap.2 ⟨c, hc, he⟩)

end Term

end LayerNet
