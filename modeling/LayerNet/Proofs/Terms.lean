import LayerNet.Port
import Mathlib.Data.List.Count
import Mathlib.Data.List.Nodup
import Mathlib.Data.List.Perm.Basic

/-!
# Networks written as terms

A `Term` is a network in tree form.  It says what stands at some place of the network: nothing, a
plain node or a group of branches with what follows it, or a fan of terms that never meet.
`Term.edges` are the edges that a term stands for, and `Term.Network` says which terms are whole
networks.

* `edges_targets_perm` counts the edges that enter each node: a plain node waits for one edge, the
  node that closes a group for one from each branch.
* `exists_split_of_mem_edges` — every edge leads forward in the order of the ids.
-/

namespace LayerNet

/-- What stands at some place of a network in tree form. -/
inductive Term where
  /-- Nothing follows. -/
  | done
  /-- A plain node, and what follows it. -/
  | node (id : NodeId) (rest : Term)
  /-- Branches that a merging node closes, and what follows it. -/
  | group (merge : NodeId) (branches : List Term) (rest : Term)
  /-- Terms side by side that never meet. -/
  | fan (terms : List Term)
  deriving Inhabited

namespace Term

variable {t rest : Term} {ts branches : List Term} {next : Option NodeId} {id m a b x : NodeId}
  {k : Nat} {inside : Bool}

/-! ## Nodes and edges -/

mutual

/-- The nodes of a term with the numbers of edges that they wait for: one edge for a plain node, and
one from each branch for a merging node. -/
def arities : Term → List (NodeId × Nat)
  | done => []
  | node id rest => (id, 1) :: arities rest
  | group m branches rest => aritiesAll branches ++ (m, branches.length) :: arities rest
  | fan terms => aritiesAll terms

/-- The nodes of several terms. -/
def aritiesAll : List Term → List (NodeId × Nat)
  | [] => []
  | t :: ts => arities t ++ aritiesAll ts

end

/-- The nodes of a term. -/
def ids (t : Term) : List NodeId := t.arities.map Prod.fst

mutual

/-- The nodes that are fed where a term begins, if `next` follows the term. -/
def entries : Term → Option NodeId → List NodeId
  | done, next => next.toList
  | node id _, _ => [id]
  | group m branches _, _ => entriesAll branches (some m)
  | fan terms, _ => entriesAll terms none

/-- The nodes that are fed where several terms begin. -/
def entriesAll : List Term → Option NodeId → List NodeId
  | [], _ => []
  | t :: ts, next => entries t next ++ entriesAll ts next

end

mutual

/-- The edges of a term, if `next` follows it.  The end of each step feeds all entries of what
follows, and the end of a branch feeds the node that closes its group. -/
def edges : Term → Option NodeId → List (NodeId × NodeId)
  | done, _ => []
  | node id rest, next => (entries rest next).map (fun b => (id, b)) ++ edges rest next
  | group m branches rest, next =>
    edgesAll branches (some m) ++ ((entries rest next).map (fun b => (m, b)) ++ edges rest next)
  | fan terms, _ => edgesAll terms none

/-- The edges of several terms. -/
def edgesAll : List Term → Option NodeId → List (NodeId × NodeId)
  | [], _ => []
  | t :: ts, next => edges t next ++ edgesAll ts next

end

/-! ## Shapes -/

/-- A term that begins with a node or a group. -/
def startsWithStep : Term → Bool
  | node _ _ => true
  | group _ _ _ => true
  | _ => false

/-- The shape of a term; a term inside a branch contains no fan. -/
inductive Shaped : Bool → Term → Prop
  | done {inside : Bool} : Shaped inside done
  | node {inside : Bool} {id : NodeId} {rest : Term} :
    Shaped inside rest → Shaped inside (node id rest)
  /-- A group has two branches at least, one of which may be empty. -/
  | group {inside : Bool} {m : NodeId} {branches : List Term} {rest : Term} :
    2 ≤ branches.length → (branches.Pairwise fun a b => a ≠ .done ∨ b ≠ .done) →
    (∀ b ∈ branches, Shaped true b) → Shaped inside rest →
    Shaped inside (group m branches rest)
  | fan {terms : List Term} :
    2 ≤ terms.length → (∀ t ∈ terms, t.startsWithStep = true) →
    (∀ t ∈ terms, Shaped false t) → Shaped false (fan terms)

/-- No group at the beginning of a term has an empty branch. -/
inductive Fed : Term → Prop
  | done : Fed done
  | node {id : NodeId} {rest : Term} : Fed (node id rest)
  | group {m : NodeId} {branches : List Term} {rest : Term} :
    (∀ b ∈ branches, b ≠ .done) → (∀ b ∈ branches, Fed b) → Fed (group m branches rest)
  | fan {terms : List Term} : (∀ t ∈ terms, Fed t) → Fed (fan terms)

/-- A term that is a whole network: it has the shape of one, different nodes, and no node without an
edge. -/
structure Network (t : Term) : Prop where
  shaped : Shaped false t
  ne_done : t ≠ .done
  fed : t.Fed
  nodup : t.ids.Nodup
  joined : ∀ id ∈ t.ids, ∃ e ∈ t.edges none, e.1 = id ∨ e.2 = id

/-! ## Equations -/

theorem aritiesAll_eq : ∀ ts : List Term, aritiesAll ts = ts.flatMap arities
  | [] => rfl
  | t :: ts => by rw [List.flatMap_cons, ← aritiesAll_eq ts]; rfl

theorem entriesAll_eq (next : Option NodeId) : ∀ ts : List Term,
    entriesAll ts next = ts.flatMap fun t => entries t next
  | [] => rfl
  | t :: ts => by rw [List.flatMap_cons, ← entriesAll_eq next ts]; rfl

theorem edgesAll_eq (next : Option NodeId) : ∀ ts : List Term,
    edgesAll ts next = ts.flatMap fun t => edges t next
  | [] => rfl
  | t :: ts => by rw [List.flatMap_cons, ← edgesAll_eq next ts]; rfl

@[simp] theorem arities_group : (group m branches rest).arities =
    branches.flatMap arities ++ (m, branches.length) :: rest.arities := by
  rw [← aritiesAll_eq]
  rfl

@[simp] theorem arities_fan : (fan ts).arities = ts.flatMap arities := aritiesAll_eq ts

@[simp] theorem ids_done : ids done = [] := rfl

@[simp] theorem ids_node : (node id rest).ids = id :: rest.ids := rfl

@[simp] theorem ids_group :
    (group m branches rest).ids = branches.flatMap ids ++ m :: rest.ids := by
  rw [ids, arities_group, List.map_append, List.map_flatMap]
  rfl

@[simp] theorem ids_fan : (fan ts).ids = ts.flatMap ids := by
  rw [ids, arities_fan, List.map_flatMap]
  rfl

@[simp] theorem entries_done : entries done next = next.toList := rfl

@[simp] theorem entries_node : (node id rest).entries next = [id] := rfl

@[simp] theorem entries_group : (group m branches rest).entries next =
    branches.flatMap fun b => b.entries (some m) := entriesAll_eq (some m) branches

@[simp] theorem entries_fan : (fan ts).entries next = ts.flatMap fun t => t.entries none :=
  entriesAll_eq none ts

@[simp] theorem edges_done : edges done next = [] := rfl

@[simp] theorem edges_node : (node id rest).edges next =
    (rest.entries next).map (fun b => (id, b)) ++ rest.edges next := rfl

@[simp] theorem edges_group : (group m branches rest).edges next =
    (branches.flatMap fun b => b.edges (some m)) ++
      ((rest.entries next).map (fun b => (m, b)) ++ rest.edges next) := by
  rw [← edgesAll_eq]
  rfl

@[simp] theorem edges_fan : (fan ts).edges next = ts.flatMap fun t => t.edges none :=
  edgesAll_eq none ts

theorem ne_done_of_startsWithStep (h : t.startsWithStep = true) : t ≠ .done := by
  rintro rfl
  cases h

/-! ## Where a term begins -/

/-- The entries of a term are among its nodes, or the term is empty. -/
theorem mem_ids_of_mem_entries (h : Shaped inside t) (hx : x ∈ t.entries next) :
    x ∈ t.ids ∨ t = .done ∧ next = some x := by
  induction h generalizing next with
  | done => exact Or.inr ⟨rfl, by simpa using hx⟩
  | node _ _ =>
    rw [entries_node, List.mem_singleton] at hx
    exact Or.inl (by simp [hx])
  | group _ _ _ _ ih _ =>
    rw [entries_group, List.mem_flatMap] at hx
    obtain ⟨b, hb, hx⟩ := hx
    rw [ids_group, List.mem_append, List.mem_flatMap, List.mem_cons]
    rcases ih b hb hx with hx | ⟨-, he⟩
    · exact Or.inl (Or.inl ⟨b, hb, hx⟩)
    · exact Or.inl (Or.inr (Or.inl (Option.some.inj he).symm))
  | fan _ _ _ ih =>
    rw [entries_fan, List.mem_flatMap] at hx
    obtain ⟨t, ht, hx⟩ := hx
    rw [ids_fan, List.mem_flatMap]
    rcases ih t ht hx with hx | ⟨-, he⟩
    · exact Or.inl ⟨t, ht, hx⟩
    · cases he

theorem mem_ids_of_mem_entries_of_ne (h : Shaped inside t) (hne : t ≠ .done)
    (hx : x ∈ t.entries next) : x ∈ t.ids :=
  (mem_ids_of_mem_entries h hx).resolve_right fun he => hne he.1

/-- Something is fed where a term begins that is not empty. -/
theorem exists_mem_entries (h : Shaped inside t) (hne : t ≠ .done ∨ next.isSome = true) :
    ∃ x, x ∈ t.entries next := by
  induction h generalizing next with
  | done =>
    obtain ⟨x, hx⟩ := Option.isSome_iff_exists.1 (hne.resolve_left fun h => h rfl)
    exact ⟨x, by simp [hx]⟩
  | @node _ id => exact ⟨id, by simp⟩
  | @group _ m _ _ hlen _ _ _ ih _ =>
    obtain ⟨b, hb⟩ := List.exists_mem_of_length_pos (Nat.lt_of_lt_of_le Nat.zero_lt_two hlen)
    obtain ⟨x, hx⟩ := @ih b hb (some m) (Or.inr rfl)
    exact ⟨x, by rw [entries_group]; exact List.mem_flatMap.2 ⟨b, hb, hx⟩⟩
  | fan hlen hstep _ ih =>
    obtain ⟨t, ht⟩ := List.exists_mem_of_length_pos (Nat.lt_of_lt_of_le Nat.zero_lt_two hlen)
    obtain ⟨x, hx⟩ := @ih t ht none (Or.inl (ne_done_of_startsWithStep (hstep t ht)))
    exact ⟨x, by rw [entries_fan]; exact List.mem_flatMap.2 ⟨t, ht, hx⟩⟩

/-! ## How many edges enter a node -/

/-- Each node as often as edges have to enter it. -/
def slots (t : Term) : List NodeId := t.arities.flatMap fun a => List.replicate a.2 a.1

@[simp] theorem slots_done : slots done = [] := rfl

@[simp] theorem slots_node : (node id rest).slots = id :: rest.slots := rfl

theorem slots_group : (group m branches rest).slots =
    branches.flatMap slots ++ (List.replicate branches.length m ++ rest.slots) := by
  rw [slots, arities_group, List.flatMap_append, List.flatMap_assoc, List.flatMap_cons]
  rfl

theorem slots_fan : (fan ts).slots = ts.flatMap slots := by
  rw [slots, arities_fan, List.flatMap_assoc]
  rfl

/-- The edges of a term together with those that enter it leave no node waiting, and one edge leads
on to what follows. -/
theorem edges_targets_perm (h : Shaped inside t) (hnext : inside = false → next = none) :
    ((t.edges next).map Prod.snd ++ t.entries next).Perm (t.slots ++ next.toList) := by
  have hsum : ∀ (ts : List Term) (next : Option NodeId) (x : NodeId),
      (∀ t ∈ ts, ((t.edges next).map Prod.snd ++ t.entries next).Perm (t.slots ++ next.toList)) →
      ((ts.flatMap fun t => t.edges next).map Prod.snd).count x +
          (ts.flatMap fun t => t.entries next).count x =
        (ts.flatMap slots).count x + ts.length * next.toList.count x := by
    intro ts next x hts
    induction ts with
    | nil => simp
    | cons t ts ih =>
      rw [List.forall_mem_cons] at hts
      have hone := hts.1.count_eq x
      have hrest := ih hts.2
      simp only [List.flatMap_cons, List.map_append, List.count_append, List.length_cons,
        Nat.succ_mul] at hone hrest ⊢
      omega
  induction h generalizing next with
  | done => simp
  | node _ ih =>
    refine List.perm_iff_count.2 ?_
    intro x
    have hrest := (ih hnext).count_eq x
    simp only [edges_node, entries_node, slots_node, List.map_append, List.map_map,
      Function.comp_def, List.map_id', List.count_append, List.count_cons, List.count_nil]
      at hrest ⊢
    omega
  | @group inside m branches rest _ _ _ _ ih ihrest =>
    refine List.perm_iff_count.2 ?_
    intro x
    have hrest := (ihrest hnext).count_eq x
    have hbranches := hsum branches (some m) x fun b hb => ih b hb (by simp)
    simp only [edges_group, entries_group, slots_group, List.map_append, List.map_map,
      Function.comp_def, List.map_id', List.count_append, List.count_replicate,
      Option.toList_some, List.count_cons, List.count_nil, Nat.zero_add] at hrest hbranches ⊢
    split <;> simp_all <;> omega
  | @fan terms _ _ _ ih =>
    refine List.perm_iff_count.2 ?_
    intro x
    have hterms := hsum terms none x fun t ht => ih t ht fun _ => rfl
    rw [hnext rfl]
    simp only [edges_fan, entries_fan, slots_fan, List.count_append, Option.toList_none,
      List.count_nil, Nat.mul_zero, Nat.add_zero] at hterms ⊢
    exact hterms

/-- A node of a term waits for the number of edges that it stands with. -/
theorem count_slots (hnodup : t.ids.Nodup) (h : (x, k) ∈ t.arities) : t.slots.count x = k := by
  have hlist : ∀ l : List (NodeId × Nat), (l.map Prod.fst).Nodup → (x, k) ∈ l →
      (l.flatMap fun a => List.replicate a.2 a.1).count x = k := by
    intro l hl hx
    induction l with
    | nil => exact absurd hx List.not_mem_nil
    | cons a l ih =>
      rw [List.map_cons, List.nodup_cons] at hl
      rw [List.flatMap_cons, List.count_append]
      rcases List.mem_cons.1 hx with rfl | hx
      · have hnone : (l.flatMap fun a => List.replicate a.2 a.1).count x = 0 := by
          refine List.count_eq_zero.2 fun hmem => hl.1 ?_
          obtain ⟨a, ha, hx⟩ := List.mem_flatMap.1 hmem
          exact List.mem_map.2 ⟨a, ha, (List.mem_replicate.1 hx).2.symm⟩
        rw [hnone, List.count_replicate_self, Nat.add_zero]
      · have hne : x ≠ a.1 := fun e => hl.1 (e ▸ List.mem_map_of_mem hx)
        rw [List.count_replicate, if_neg (by simpa using hne.symm), ih hl.2 hx, Nat.zero_add]
  exact hlist t.arities hnodup h

/-! ## The order of the nodes -/

/-- Every edge leads forward in the order of the nodes, or on to what follows. -/
theorem exists_split_of_mem_edges (h : Shaped inside t) (hab : (a, b) ∈ t.edges next) :
    ∃ front back, t.ids = front ++ a :: back ∧ (b ∈ back ∨ next = some b) := by
  induction h generalizing next with
  | done => exact absurd hab List.not_mem_nil
  | @node _ id rest hrest ih =>
    rw [edges_node, List.mem_append, List.mem_map] at hab
    rcases hab with ⟨c, hc, he⟩ | hab
    · cases he
      exact ⟨[], rest.ids, rfl, (mem_ids_of_mem_entries hrest hc).imp_right And.right⟩
    · obtain ⟨front, back, hids, hb⟩ := ih hab
      exact ⟨id :: front, back, by rw [ids_node, hids, List.cons_append], hb⟩
  | @group _ m branches rest _ _ _ hrest ih ihrest =>
    rw [edges_group, List.mem_append, List.mem_append, List.mem_flatMap, List.mem_map] at hab
    rcases hab with ⟨c, hc, hab⟩ | ⟨c, hc, he⟩ | hab
    · obtain ⟨front, back, hids, hb⟩ := ih c hc hab
      obtain ⟨before, after, rfl⟩ := List.append_of_mem hc
      refine ⟨before.flatMap ids ++ front, back ++ (after.flatMap ids ++ m :: rest.ids), ?_, ?_⟩
      · rw [ids_group, List.flatMap_append, List.flatMap_cons, hids]
        simp only [List.append_assoc, List.cons_append]
      · rcases hb with hb | hb
        · exact Or.inl (List.mem_append_left _ hb)
        · rw [Option.some.inj hb]
          exact Or.inl (by simp)
    · cases he
      refine ⟨branches.flatMap ids, rest.ids, ids_group, ?_⟩
      exact (mem_ids_of_mem_entries hrest hc).imp_right And.right
    · obtain ⟨front, back, hids, hb⟩ := ihrest hab
      refine ⟨branches.flatMap ids ++ m :: front, back, ?_, hb⟩
      rw [ids_group, hids]
      simp only [List.append_assoc, List.cons_append]
  | @fan terms _ _ _ ih =>
    rw [edges_fan, List.mem_flatMap] at hab
    obtain ⟨c, hc, hab⟩ := hab
    obtain ⟨front, back, hids, hb⟩ := ih c hc hab
    obtain ⟨before, after, rfl⟩ := List.append_of_mem hc
    refine ⟨before.flatMap ids ++ front, back ++ after.flatMap ids, ?_, ?_⟩
    · rw [ids_fan, List.flatMap_append, List.flatMap_cons, hids]
      simp only [List.append_assoc, List.cons_append]
    · rcases hb with hb | hb
      · exact Or.inl (List.mem_append_left _ hb)
      · cases hb

theorem mem_ids_of_mem_edges (h : Shaped inside t) (hab : (a, b) ∈ t.edges next) :
    a ∈ t.ids ∧ (b ∈ t.ids ∨ next = some b) := by
  obtain ⟨front, back, hids, hb⟩ := exists_split_of_mem_edges h hab
  rw [hids]
  exact ⟨by simp, hb.imp_left fun hb => by simp [hb]⟩

/-- The place of a node in the order grows along every edge. -/
theorem idxOf_lt_of_mem_edges (h : Shaped inside t) (hnodup : t.ids.Nodup)
    (hab : (a, b) ∈ t.edges none) : t.ids.idxOf a < t.ids.idxOf b := by
  obtain ⟨front, back, hids, hb⟩ := exists_split_of_mem_edges h hab
  have hb := hb.resolve_right (by simp)
  rw [hids, List.nodup_append, List.nodup_cons] at hnodup
  obtain ⟨-, ⟨hback, -⟩, hfront⟩ := hnodup
  have ha : a ∉ front := fun ha => hfront a ha a List.mem_cons_self rfl
  have hbfront : b ∉ front := fun hbf => hfront b hbf b (List.mem_cons_of_mem _ hb) rfl
  have hne : a ≠ b := fun e => hback (e ▸ hb)
  rw [hids, List.idxOf_append_of_notMem ha, List.idxOf_append_of_notMem hbfront,
    List.idxOf_cons_self, List.idxOf_cons_ne _ hne]
  omega

/-! ## No repetitions -/

/-- Two terms side by side with different nodes. -/
theorem pairwise_disjoint_of_nodup (h : (ts.flatMap ids).Nodup) :
    ts.Pairwise fun a b => ∀ x ∈ a.ids, x ∉ b.ids :=
  (List.nodup_flatMap.1 h).2.imp fun hab _ ha hb => hab ha hb

/-- The branches of a group repeat no node, and neither do the node that closes it and the rest. -/
theorem nodup_group (h : (group m branches rest).ids.Nodup) :
    (branches.flatMap ids).Nodup ∧ (node m rest).ids.Nodup ∧
      ∀ b ∈ branches, ∀ x ∈ m :: rest.ids, x ∉ b.ids := by
  rw [ids_group, List.nodup_append] at h
  refine ⟨h.1, h.2.1, ?_⟩
  intro b hb x hx hxb
  exact h.2.2 x (List.mem_flatMap.2 ⟨b, hb, hxb⟩) x hx rfl

theorem nodup_entries (h : Shaped inside t) (hnodup : t.ids.Nodup) : (t.entries next).Nodup := by
  induction h generalizing next with
  | done => cases next <;> simp
  | node _ _ => simp
  | @group _ m branches rest _ hempty hshape _ ih _ =>
    obtain ⟨hbranches, -, hapart⟩ := nodup_group hnodup
    have hmerge : ∀ c ∈ branches, m ∉ c.ids := fun c hc => hapart c hc m List.mem_cons_self
    rw [entries_group]
    refine List.nodup_flatMap.2 ⟨fun b hb => ih b hb ((List.nodup_flatMap.1 hbranches).1 b hb), ?_⟩
    refine (List.pairwise_and_iff.2 ⟨hempty, pairwise_disjoint_of_nodup hbranches⟩).imp_of_mem
      fun {a b} ha hb hab x hxa hxb => ?_
    rcases mem_ids_of_mem_entries (hshape a ha) hxa with hxa' | ⟨hadone, he⟩
    · rcases mem_ids_of_mem_entries (hshape b hb) hxb with hxb' | ⟨-, he⟩
      · exact hab.2 x hxa' hxb'
      · exact hmerge a ha (Option.some.inj he ▸ hxa')
    · rcases mem_ids_of_mem_entries (hshape b hb) hxb with hxb' | ⟨hbdone, -⟩
      · exact hmerge b hb (Option.some.inj he ▸ hxb')
      · exact hab.1.elim (fun h => h hadone) fun h => h hbdone
  | @fan terms _ _ hshape ih =>
    rw [ids_fan] at hnodup
    rw [entries_fan]
    refine List.nodup_flatMap.2 ⟨fun t ht => ih t ht ((List.nodup_flatMap.1 hnodup).1 t ht), ?_⟩
    refine (pairwise_disjoint_of_nodup hnodup).imp_of_mem fun {a b} ha hb hab x hxa hxb => ?_
    have hxa' := (mem_ids_of_mem_entries (hshape a ha) hxa).resolve_right (by simp)
    have hxb' := (mem_ids_of_mem_entries (hshape b hb) hxb).resolve_right (by simp)
    exact hab x hxa' hxb'

theorem nodup_edges (h : Shaped inside t) (hnodup : t.ids.Nodup) : (t.edges next).Nodup := by
  have hpairs : ∀ (id : NodeId) {l : List NodeId}, l.Nodup → (l.map fun b => (id, b)).Nodup :=
    fun id l hl => hl.map fun b c e => (Prod.mk.inj e).2
  have hflat : ∀ {ts : List Term} {inside : Bool} {next : Option NodeId}, (ts.flatMap ids).Nodup →
      (∀ t ∈ ts, Shaped inside t) → (∀ t ∈ ts, (t.edges next).Nodup) →
      (ts.flatMap fun t => t.edges next).Nodup := by
    intro ts inside next hids hshape hedges
    refine List.nodup_flatMap.2 ⟨hedges, ?_⟩
    refine (pairwise_disjoint_of_nodup hids).imp_of_mem fun {a b} ha hb hab e hea heb => ?_
    exact hab e.1 (mem_ids_of_mem_edges (hshape a ha) hea).1
      (mem_ids_of_mem_edges (hshape b hb) heb).1
  induction h generalizing next with
  | done => exact List.nodup_nil
  | node hrest ih =>
    rw [ids_node, List.nodup_cons] at hnodup
    rw [edges_node, List.nodup_append]
    refine ⟨hpairs _ (nodup_entries hrest hnodup.2), ih hnodup.2, fun e he e' he' hee => ?_⟩
    obtain ⟨c, -, rfl⟩ := List.mem_map.1 he
    subst hee
    exact hnodup.1 (mem_ids_of_mem_edges hrest he').1
  | @group _ m branches rest _ _ hshape hrest ih ihrest =>
    obtain ⟨hbranches, hbehind, hapart⟩ := nodup_group hnodup
    obtain ⟨hm, hids⟩ := List.nodup_cons.1 hbehind
    rw [edges_group, List.nodup_append, List.nodup_append]
    refine ⟨hflat hbranches hshape fun b hb => ih b hb ((List.nodup_flatMap.1 hbranches).1 b hb),
      ⟨hpairs _ (nodup_entries hrest hids), ihrest hids, fun e he e' he' hee => ?_⟩,
      fun e he e' he' hee => ?_⟩
    · obtain ⟨c, -, rfl⟩ := List.mem_map.1 he
      subst hee
      exact hm (mem_ids_of_mem_edges hrest he').1
    · subst hee
      obtain ⟨b, hb, he⟩ := List.mem_flatMap.1 he
      refine hapart b hb e.1 ?_ (mem_ids_of_mem_edges (hshape b hb) he).1
      rcases List.mem_append.1 he' with he' | he'
      · obtain ⟨c, -, rfl⟩ := List.mem_map.1 he'
        exact List.mem_cons_self
      · exact List.mem_cons_of_mem _ (mem_ids_of_mem_edges hrest he').1
  | fan _ _ hshape ih =>
    rw [ids_fan] at hnodup
    rw [edges_fan]
    exact hflat hnodup hshape fun t ht => ih t ht ((List.nodup_flatMap.1 hnodup).1 t ht)

/-- The entries of a network are plain nodes. -/
theorem Fed.arity_of_mem_entries (h : t.Fed) (hx : x ∈ t.entries none) : (x, 1) ∈ t.arities := by
  have hany : ∀ {t : Term} {next : Option NodeId}, t.Fed → (t ≠ .done ∨ next = none) →
      x ∈ t.entries next → (x, 1) ∈ t.arities := by
    intro t next h hne hx
    induction h generalizing next with
    | done =>
      rw [hne.resolve_left fun h => h rfl] at hx
      exact absurd hx List.not_mem_nil
    | node =>
      rw [entries_node, List.mem_singleton] at hx
      exact List.mem_cons.2 (Or.inl (by rw [hx]))
    | group hfull _ ih =>
      rw [entries_group, List.mem_flatMap] at hx
      obtain ⟨b, hb, hx⟩ := hx
      rw [arities_group, List.mem_append, List.mem_flatMap]
      exact Or.inl ⟨b, hb, ih b hb (Or.inl (hfull b hb)) hx⟩
    | fan _ ih =>
      rw [entries_fan, List.mem_flatMap] at hx
      obtain ⟨t, ht, hx⟩ := hx
      rw [arities_fan, List.mem_flatMap]
      exact ⟨t, ht, ih t ht (Or.inr rfl) hx⟩
  exact hany h (Or.inr rfl) hx

end Term

end LayerNet
