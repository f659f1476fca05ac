import LayerNet.Proofs.Soundness

/-!
# Sorting the nodes along the edges

A sorting takes the nodes one after the other, each when all nodes that feed it are sorted.  For
every node it keeps a number, which is meant to be the number of nodes that still have to be sorted
before it (`Graph.waitsFor`).

`Sorting.Proper` is the invariant.  It holds at the start, and each step keeps it (`Proper.step`).
All it needs of the graph is that the edges end at nodes (`Anchored`): they may form cycles, and
then the nodes of a cycle wait for each other for ever.  What the invariant says about a sorting:

* `Anchored.of_topologicalOrder` — an order lists every node once, and no node before one that
  feeds it;
* `Anchored.exists_topologicalOrder_iff` — there is an order exactly if the primary edges form no
  cycle;
* `Anchored.lookup_of_releases` — no edge is taken off where none is left.

`topologicalOrder_decides` puts this together for any graph, and `Edited.sorted_without_cycle` says
what it means for edited graphs.
-/

namespace LayerNet

open Relation

namespace Graph

variable {g : Graph} {done : List NodeId} {u id : NodeId}

/-- Every primary edge ends at a node of the graph.  No more is asked of a graph here: its edges may
form cycles, and a node may feed itself. -/
def Anchored (g : Graph) : Prop := ∀ a b, g.Flows a b → b ∈ g.ids

theorem WellFormed.anchored (hg : g.WellFormed) : g.Anchored := fun _ _ => hg.flows_mem_ids

/-! ## What a node waits for -/

/-- The nodes that feed `id` and are not sorted yet. -/
def waitsFor (g : Graph) (done : List NodeId) (id : NodeId) : List NodeId :=
  g.ids.filter fun u => u ∉ done ∧ id ∈ g.successors u

theorem mem_waitsFor : u ∈ g.waitsFor done id ↔ u ∉ done ∧ g.Flows u id := by
  rw [waitsFor, List.mem_filter, decide_eq_true_eq]
  exact ⟨fun h => h.2, fun h => ⟨Flows.mem_ids h.2, h⟩⟩

theorem waitsFor_eq_nil_iff : g.waitsFor done id = [] ↔ ∀ u, g.Flows u id → u ∈ done := by
  simp only [List.eq_nil_iff_forall_not_mem, mem_waitsFor, not_and]
  exact forall_congr' fun u => ⟨fun h hu => by_contra fun hn => h hn hu, fun h hn hu => hn (h hu)⟩

/-- Sorting one more node takes this node away from those that are waited for. -/
theorem waitsFor_concat (g : Graph) (done : List NodeId) (u id : NodeId) :
    g.waitsFor (done ++ [u]) id = (g.waitsFor done id).erase u := by
  have hnodup : (g.waitsFor done id).Nodup := g.nodup_ids.sublist List.filter_sublist
  rw [hnodup.erase_eq_filter, waitsFor, waitsFor, List.filter_filter]
  refine List.filter_congr fun x _ => ?_
  by_cases hx : x = u <;> simp [hx]

theorem length_waitsFor_concat (hu : u ∉ done) :
    (g.waitsFor (done ++ [u]) id).length =
      if id ∈ g.successors u then (g.waitsFor done id).length - 1
      else (g.waitsFor done id).length := by
  rw [waitsFor_concat]
  split
  · rename_i h
    exact List.length_erase_of_mem (mem_waitsFor.2 ⟨hu, h⟩)
  · rename_i h
    rw [List.erase_of_not_mem fun hm => h (mem_waitsFor.1 hm).2]

/-- Before any node is sorted, a node waits for all nodes that feed it. -/
theorem count_flatMap_successors (g : Graph) (id : NodeId) :
    (g.ids.flatMap g.successors).count id = (g.waitsFor [] id).length := by
  unfold waitsFor
  induction g.ids with
  | nil => rfl
  | cons u ids ih =>
    rw [List.flatMap_cons, List.count_append, ih]
    by_cases h : id ∈ g.successors u
    · rw [List.count_eq_one_of_mem (g.nodup_successors u) h,
        List.filter_cons_of_pos (by simp [h]), List.length_cons, Nat.add_comm]
    · rw [List.count_eq_zero_of_not_mem h, List.filter_cons_of_neg (by simp [h]), Nat.zero_add]

namespace Sorting

variable {g : Graph} {s : Sorting} {l ready : List NodeId} {id x : NodeId}

/-! ## Taking edges off -/

theorem lookup_map_pair (f : NodeId → Nat) (l : List NodeId) (x : NodeId) :
    (l.map fun id => (id, f id)).lookup x = if x ∈ l then some (f x) else none := by
  induction l with
  | nil => rfl
  | cons id l ih =>
    rw [List.map_cons, List.lookup_cons, ih]
    by_cases h : x = id
    · subst h
      simp
    · have hne : (x == id) = false := by simpa using h
      simp [hne, h]

theorem lookup_map_pred (degrees : List (NodeId × Nat)) (id x : NodeId) :
    (degrees.map fun d => if d.1 = id then (id, d.2 - 1) else d).lookup x =
      if x = id then (degrees.lookup x).map (· - 1) else degrees.lookup x := by
  induction degrees with
  | nil => simp
  | cons d degrees ih =>
    obtain ⟨k, n⟩ := d
    rw [List.map_cons, List.lookup_cons]
    by_cases hk : k = id
    · subst hk
      by_cases hx : x = k
      · simp [hx]
      · have hne : (x == k) = false := by simpa using hx
        simp [List.lookup_cons, hne, ih, hx]
    · rw [if_neg hk, List.lookup_cons, ih]
      by_cases hx : x = k
      · subst hx
        simp [hk]
      · have hne : (x == k) = false := by simpa using hx
        simp only [hne]

/-- Taking an edge into a node off is seen at this node alone. -/
theorem lookup_release (s : Sorting) (id x : NodeId) :
    (s.release id).degrees.lookup x =
      if x = id then (s.degrees.lookup x).map (· - 1) else s.degrees.lookup x := by
  unfold release
  split
  · rename_i h
    split
    · rename_i hx
      simp [hx, h]
    · rfl
  · rename_i h
    split
    · rename_i hx
      simp [hx, h]
    · rfl
  · exact lookup_map_pred ..
  · exact lookup_map_pred ..

/-- The last edge makes a node ready. -/
theorem ready_release (s : Sorting) (id : NodeId) :
    (s.release id).ready = s.ready ++ if s.degrees.lookup id = some 1 then [id] else [] := by
  unfold release
  split
  · rename_i h
    simp [h]
  · rename_i h
    simp [h]
  · rename_i h
    simp [h]
  · rename_i n hzero hone h
    rw [h, if_neg fun e => hone (Option.some.inj e), List.append_nil]

@[simp] theorem done_release (s : Sorting) (id : NodeId) : (s.release id).done = s.done := by
  unfold release
  split <;> rfl

theorem lookup_foldl_release (h : l.Nodup) (s : Sorting) (x : NodeId) :
    (l.foldl release s).degrees.lookup x =
      if x ∈ l then (s.degrees.lookup x).map (· - 1) else s.degrees.lookup x := by
  induction l generalizing s with
  | nil => simp
  | cons id l ih =>
    obtain ⟨hid, hl⟩ := List.nodup_cons.1 h
    rw [List.foldl_cons, ih hl, lookup_release]
    by_cases hx : x = id
    · subst hx
      simp [hid]
    · simp [hx]

theorem ready_foldl_release (h : l.Nodup) (s : Sorting) :
    (l.foldl release s).ready =
      s.ready ++ l.filter fun id => s.degrees.lookup id = some 1 := by
  induction l generalizing s with
  | nil => simp
  | cons id l ih =>
    obtain ⟨hid, hl⟩ := List.nodup_cons.1 h
    have hrest : (l.filter fun x => (s.release id).degrees.lookup x = some 1) =
        l.filter fun x => s.degrees.lookup x = some 1 := by
      refine List.filter_congr fun x hx => ?_
      have hne : x ≠ id := fun e => hid (e ▸ hx)
      rw [lookup_release, if_neg hne]
    rw [List.foldl_cons, ih hl, ready_release, hrest, List.filter_cons]
    by_cases hone : s.degrees.lookup id = some 1 <;> simp [hone]

@[simp] theorem done_foldl_release (l : List NodeId) (s : Sorting) :
    (l.foldl release s).done = s.done := by
  induction l generalizing s with
  | nil => rfl
  | cons id l ih => rw [List.foldl_cons, ih, done_release]

/-! ## One step -/

theorem step_of_ready_eq_nil (h : s.ready = []) : s.step g = s := by
  rw [step, h]

theorem done_step (h : s.ready = id :: ready) : (s.step g).done = s.done ++ [id] := by
  rw [step, h]
  exact done_foldl_release ..

theorem ready_step (h : s.ready = id :: ready) :
    (s.step g).ready =
      ready ++ (g.successors id).filter fun x => s.degrees.lookup x = some 1 := by
  rw [step, h]
  exact ready_foldl_release (g.nodup_successors id) _

theorem lookup_step (h : s.ready = id :: ready) (x : NodeId) :
    (s.step g).degrees.lookup x =
      if x ∈ g.successors id then (s.degrees.lookup x).map (· - 1) else s.degrees.lookup x := by
  rw [step, h]
  exact lookup_foldl_release (g.nodup_successors id) _ x

/-! ## The invariant -/

/-- A sorting under way: the numbers are right, and exactly the nodes that wait for nothing are
sorted or ready. -/
structure Proper (g : Graph) (s : Sorting) : Prop where
  degree : ∀ id ∈ g.ids, s.degrees.lookup id = some (g.waitsFor s.done id).length
  nodup : (s.done ++ s.ready).Nodup
  mem_ids : ∀ id ∈ s.done ++ s.ready, id ∈ g.ids
  mem_iff : ∀ id ∈ g.ids, id ∈ s.done ++ s.ready ↔ g.waitsFor s.done id = []
  /-- No sorted node feeds one that was sorted before. -/
  forward : s.done.Pairwise fun a b => ¬g.Flows b a
  /-- Nor does a sorted node feed itself. -/
  loopless : ∀ a ∈ s.done, ¬g.Flows a a

theorem ready_start (g : Graph) :
    (start g).ready = g.ids.filter fun id => (g.waitsFor [] id).length = 0 := by
  simp only [start, count_flatMap_successors, List.filter_map, List.map_map]
  exact List.map_id _

theorem proper_start (g : Graph) : (start g).Proper g where
  degree id hid := by
    simp only [start, count_flatMap_successors]
    rw [lookup_map_pair fun id => (g.waitsFor [] id).length, if_pos hid]
  nodup := by
    rw [ready_start]
    exact g.nodup_ids.sublist List.filter_sublist
  mem_ids := by
    rw [ready_start]
    exact fun id hid => (List.mem_filter.1 hid).1
  mem_iff id hid := by
    rw [ready_start]
    simp [start, hid]
  forward := .nil
  loopless a ha := absurd ha List.not_mem_nil

theorem Proper.not_mem_done (h : s.Proper g) (hready : s.ready = id :: ready) : id ∉ s.done := by
  have hnodup := h.nodup
  rw [hready] at hnodup
  exact fun hm => (List.nodup_append.1 hnodup).2.2 id hm id List.mem_cons_self rfl

/-- What a ready node feeds is neither sorted nor ready. -/
theorem Proper.not_mem_of_flows (h : s.Proper g) (hready : s.ready = id :: ready)
    (hflow : g.Flows id x) : x ∉ s.done ++ s.ready := by
  intro hm
  have hwait := (h.mem_iff x (h.mem_ids x hm)).1 hm
  exact h.not_mem_done hready (waitsFor_eq_nil_iff.1 hwait id hflow)

/-- The nodes that a step makes ready wait for the node that it sorts, and for no other. -/
theorem Proper.mem_freed (h : s.Proper g) (hw : g.Anchored) :
    x ∈ (g.successors id).filter (fun x => s.degrees.lookup x = some 1) ↔
      g.Flows id x ∧ (g.waitsFor s.done x).length = 1 := by
  rw [List.mem_filter, decide_eq_true_eq]
  refine and_congr_right fun hx => ?_
  rw [h.degree x (hw id x hx), Option.some.injEq]

theorem Proper.mem_step_iff (h : s.Proper g) (hw : g.Anchored) (hready : s.ready = id :: ready) :
    x ∈ (s.step g).done ++ (s.step g).ready ↔
      x ∈ s.done ++ s.ready ∨ g.Flows id x ∧ (g.waitsFor s.done x).length = 1 := by
  rw [← h.mem_freed hw, done_step hready, ready_step hready, hready]
  simp only [List.mem_append, List.mem_cons, List.not_mem_nil, or_false, or_assoc]

/-- A step takes the sorted node away from those that its successors wait for. -/
theorem Proper.length_waitsFor_step (h : s.Proper g) (hready : s.ready = id :: ready) (x : NodeId) :
    (g.waitsFor (s.step g).done x).length =
      if x ∈ g.successors id then (g.waitsFor s.done x).length - 1
      else (g.waitsFor s.done x).length := by
  rw [done_step hready]
  exact length_waitsFor_concat (h.not_mem_done hready)

theorem Proper.step_cons (h : s.Proper g) (hw : g.Anchored) (hready : s.ready = id :: ready) :
    (s.step g).Proper g where
  degree x hx := by
    rw [lookup_step hready, h.length_waitsFor_step hready, h.degree x hx]
    split <;> rfl
  nodup := by
    have hnodup := h.nodup
    rw [hready] at hnodup
    rw [done_step hready, ready_step hready, List.append_assoc, List.singleton_append,
      ← List.cons_append, ← List.append_assoc]
    refine List.nodup_append.2 ⟨hnodup, (g.nodup_successors id).filter _, ?_⟩
    rintro x hx y hy rfl
    rw [← hready] at hx
    exact h.not_mem_of_flows hready ((h.mem_freed hw).1 hy).1 hx
  mem_ids x hx := by
    rcases (h.mem_step_iff hw hready).1 hx with hx | hx
    · exact h.mem_ids x hx
    · exact hw id x hx.1
  mem_iff x hx := by
    rw [h.mem_step_iff hw hready, h.mem_iff x hx, ← List.length_eq_zero_iff,
      ← List.length_eq_zero_iff, h.length_waitsFor_step hready]
    by_cases hflow : g.Flows id x
    · -- the sorted node is one that `x` still waited for
      have hpos : (g.waitsFor s.done x).length ≠ 0 := fun hzero =>
        h.not_mem_of_flows hready hflow ((h.mem_iff x hx).2 (List.length_eq_zero_iff.1 hzero))
      simp only [if_pos (show x ∈ g.successors id from hflow), hflow, true_and]
      omega
    · simp only [if_neg (show x ∉ g.successors id from hflow), hflow, false_and, or_false]
  forward := by
    rw [done_step hready, List.pairwise_append]
    refine ⟨h.forward, List.pairwise_singleton .., fun a ha b hb => ?_⟩
    rw [List.mem_singleton.1 hb]
    exact fun hflow => h.not_mem_of_flows hready hflow (List.mem_append_left _ ha)
  loopless a ha := by
    rw [done_step hready, List.mem_append, List.mem_singleton] at ha
    rcases ha with ha | rfl
    · exact h.loopless a ha
    · refine fun hflow => h.not_mem_of_flows hready hflow (List.mem_append_right _ ?_)
      exact hready ▸ List.mem_cons_self

/-- A step keeps the invariant. -/
theorem Proper.step (h : s.Proper g) (hw : g.Anchored) : (s.step g).Proper g := by
  cases hready : s.ready with
  | nil => rwa [step_of_ready_eq_nil hready]
  | cons id ready => exact h.step_cons hw hready

theorem Proper.run (h : s.Proper g) (hw : g.Anchored) (turns : Nat) :
    (run g turns s).Proper g := by
  induction turns generalizing s with
  | zero => exact h
  | succ turns ih => exact ih (h.step hw)

/-! ## The end of a sorting -/

theorem run_of_ready_eq_nil (h : s.ready = []) (turns : Nat) : Sorting.run g turns s = s := by
  induction turns with
  | zero => rfl
  | succ turns ih => rw [Sorting.run, step_of_ready_eq_nil h, ih]

/-- Each turn sorts one node, until none is ready. -/
theorem ready_run_eq_nil_or (g : Graph) (turns : Nat) (s : Sorting) :
    (Sorting.run g turns s).ready = [] ∨
      (Sorting.run g turns s).done.length = s.done.length + turns := by
  induction turns generalizing s with
  | zero => exact Or.inr rfl
  | succ turns ih =>
    cases hready : s.ready with
    | nil =>
      rw [run_of_ready_eq_nil hready]
      exact Or.inl hready
    | cons id ready =>
      rw [Sorting.run]
      refine (ih (s.step g)).imp_right fun hlen => ?_
      rw [hlen, done_step hready, List.length_append, List.length_singleton, Nat.add_assoc,
        Nat.add_comm 1]

end Sorting

/-- The sorting when all its turns are over. -/
def sorted (g : Graph) : Sorting := Sorting.run g g.size (Sorting.start g)

theorem Anchored.proper_sorted (hg : g.Anchored) : g.sorted.Proper g :=
  (Sorting.proper_start g).run hg g.size

/-- In the end no node is ready any more. -/
theorem Anchored.ready_sorted (hg : g.Anchored) : g.sorted.ready = [] := by
  have h := hg.proper_sorted
  rcases Sorting.ready_run_eq_nil_or g g.size (Sorting.start g) with hready | hlen
  · exact hready
  · -- all nodes are sorted then
    have hle := (h.nodup.subperm fun id hid => h.mem_ids id hid).length_le
    rw [List.length_append, length_ids] at hle
    have hdone : g.sorted.done.length = g.size := hlen.trans (Nat.zero_add _)
    exact List.length_eq_zero_iff.1 (by omega)

theorem Anchored.nodup_sorted (hg : g.Anchored) : g.sorted.done.Nodup :=
  hg.proper_sorted.nodup.sublist (List.sublist_append_left ..)

/-- The sorted nodes are those that wait for nothing in the end. -/
theorem Anchored.mem_sorted_iff (hg : g.Anchored) :
    id ∈ g.sorted.done ↔ id ∈ g.ids ∧ ∀ u, g.Flows u id → u ∈ g.sorted.done := by
  have h := hg.proper_sorted
  have hready : g.sorted.done ++ g.sorted.ready = g.sorted.done := by
    rw [hg.ready_sorted, List.append_nil]
  constructor
  · intro hid
    have hmem := h.mem_ids id (hready.symm ▸ hid)
    exact ⟨hmem, waitsFor_eq_nil_iff.1 ((h.mem_iff id hmem).1 (hready.symm ▸ hid))⟩
  · rintro ⟨hmem, hfed⟩
    exact hready ▸ (h.mem_iff id hmem).2 (waitsFor_eq_nil_iff.2 hfed)

theorem topologicalOrder_eq_some_iff {order : List NodeId} :
    g.topologicalOrder = some order ↔ g.sorted.done.length = g.size ∧ g.sorted.done = order := by
  simp [topologicalOrder, sorted]

/-- An order lists every node once, and no node before one that feeds it. -/
theorem Anchored.of_topologicalOrder (hg : g.Anchored) {order : List NodeId}
    (h : g.topologicalOrder = some order) :
    order.Perm g.ids ∧ (order.Pairwise fun a b => ¬g.Flows b a) ∧ ∀ a ∈ order, ¬g.Flows a a := by
  obtain ⟨hlen, rfl⟩ := topologicalOrder_eq_some_iff.1 h
  refine ⟨?_, hg.proper_sorted.forward, hg.proper_sorted.loopless⟩
  have hsub : g.sorted.done.Subperm g.ids :=
    hg.nodup_sorted.subperm fun id hid => (hg.mem_sorted_iff.1 hid).1
  exact hsub.perm_of_length_le (by rw [length_ids, hlen])

/-- The nodes of a graph without cycles can be sorted. -/
theorem Anchored.exists_topologicalOrder (hg : g.Anchored) (h : g.Acyclic) :
    ∃ order, g.topologicalOrder = some order := by
  have hall : ∀ id ∈ g.ids, id ∈ g.sorted.done := by
    intro id
    induction id using h.wellFounded.induction with
    | _ id ih => exact fun hid => hg.mem_sorted_iff.2 ⟨hid, fun u hu => ih u hu hu.mem_ids⟩
  refine ⟨_, topologicalOrder_eq_some_iff.2 ⟨Nat.le_antisymm ?_ ?_, rfl⟩⟩
  · rw [← length_ids]
    exact (hg.nodup_sorted.subperm fun id hid => (hg.mem_sorted_iff.1 hid).1).length_le
  · rw [← length_ids]
    exact (g.nodup_ids.subperm hall).length_le

/-- In an order, a node stands before the nodes that it feeds. -/
theorem Anchored.idxOf_lt_of_flows (hg : g.Anchored) {order : List NodeId}
    (h : g.topologicalOrder = some order) {a b : NodeId} (hab : g.Flows a b) :
    order.idxOf a < order.idxOf b := by
  obtain ⟨hperm, hforward, hloopless⟩ := hg.of_topologicalOrder h
  have hmem : a ∈ order := hperm.mem_iff.2 hab.mem_ids
  have ha : order.idxOf a < order.length := List.idxOf_lt_length_iff.2 hmem
  have hb : order.idxOf b < order.length :=
    List.idxOf_lt_length_iff.2 (hperm.mem_iff.2 (hg a b hab))
  rcases Nat.lt_trichotomy (order.idxOf a) (order.idxOf b) with hlt | heq | hgt
  · exact hlt
  · obtain rfl := (List.idxOf_inj hmem).1 heq
    exact absurd hab (hloopless a hmem)
  · have hback := List.pairwise_iff_getElem.1 hforward _ _ hb ha hgt
    rw [List.getElem_idxOf, List.getElem_idxOf] at hback
    exact absurd hab hback

/-- Nodes that are sorted form no cycle: along a path they stand further and further back. -/
theorem Anchored.acyclic_of_topologicalOrder (hg : g.Anchored) {order : List NodeId}
    (h : g.topologicalOrder = some order) : g.Acyclic := by
  intro a ha
  have hpath : ∀ {b}, TransGen g.Flows a b → order.idxOf a < order.idxOf b := by
    intro b hab
    induction hab with
    | single hab => exact hg.idxOf_lt_of_flows h hab
    | tail _ hbc ih => exact ih.trans (hg.idxOf_lt_of_flows h hbc)
  exact Nat.lt_irrefl _ (hpath ha)

theorem Anchored.exists_topologicalOrder_iff (hg : g.Anchored) :
    (∃ order, g.topologicalOrder = some order) ↔ g.Acyclic :=
  ⟨fun ⟨_, h⟩ => hg.acyclic_of_topologicalOrder h, hg.exists_topologicalOrder⟩

theorem hasCycle_eq_false_iff_exists :
    g.hasCycle = false ↔ ∃ order, g.topologicalOrder = some order := by
  rw [hasCycle, Option.isNone_eq_false_iff, Option.isSome_iff_exists]

/-! ## Taking off is never taking from nothing -/

/-- In the course of a sorting it comes to the state `s`, and to an edge into `id` that is taken off
there: the edges of the node that is sorted are taken off one by one. -/
def Sorting.Releases (g : Graph) (s : Sorting) (id : NodeId) : Prop :=
  ∃ (turns : Nat) (first : NodeId) (ready before after : List NodeId),
    (Sorting.run g turns (.start g)).ready = first :: ready ∧
      g.successors first = before ++ id :: after ∧
        s = before.foldl Sorting.release
          { Sorting.run g turns (.start g) with
            ready
            done := (Sorting.run g turns (.start g)).done ++ [first] }

/-- An edge is taken off from a number that counts it. -/
theorem Anchored.lookup_of_releases (hg : g.Anchored) {s : Sorting} (h : s.Releases g id) :
    ∃ n, s.degrees.lookup id = some (n + 1) := by
  obtain ⟨turns, first, ready, before, after, hready, hsuccessors, rfl⟩ := h
  have hproper := (Sorting.proper_start g).run hg turns
  have hflow : g.Flows first id := by
    rw [Flows, hsuccessors]
    exact List.mem_append_right _ List.mem_cons_self
  have hnodup := g.nodup_successors first
  rw [hsuccessors] at hnodup
  -- the edges that were taken off before lead to other nodes
  have hbefore : id ∉ before := fun hm =>
    (List.nodup_append.1 hnodup).2.2 id hm id List.mem_cons_self rfl
  have hwaits := mem_waitsFor.2 ⟨hproper.not_mem_done hready, hflow⟩
  rw [Sorting.lookup_foldl_release (List.nodup_append.1 hnodup).1, if_neg hbefore,
    hproper.degree id (hg first id hflow)]
  exact ⟨_, congrArg some (Nat.succ_pred_eq_of_pos (List.length_pos_of_mem hwaits)).symm⟩

/-! ## Graphs with cycles -/

theorem flows_eq (g : Graph) : g.Flows = fun a b => PortRef.input b ∈ g.peers (.output a) := by
  funext a b
  exact propext flows_iff

/-- In a graph whose edges end at existing ports, with or without cycles: the nodes can be sorted if
and only if the primary edges form no cycle, and the search for a cycle finds one if and only if
there is one; an order lists every node once and the start of every edge before its end; and no edge
is taken off from a node for which none is left. -/
theorem topologicalOrder_decides (hexists : ∀ p q, q ∈ g.peers p → (g.port? q).isSome) :
    ((∃ order, g.topologicalOrder = some order) ↔
      ¬∃ a, TransGen (fun a b => PortRef.input b ∈ g.peers (.output a)) a a) ∧
    (g.hasCycle = true ↔
      ∃ a, TransGen (fun a b => PortRef.input b ∈ g.peers (.output a)) a a) ∧
    (∀ order, g.topologicalOrder = some order → order.Nodup ∧ (∀ id, id ∈ order ↔ id ∈ g.ids) ∧
      ∀ a b, PortRef.input b ∈ g.peers (.output a) → order.idxOf a < order.idxOf b) ∧
    ∀ s id, Sorting.Releases g s id → ∃ n, s.degrees.lookup id = some (n + 1) := by
  have hg : g.Anchored := by
    intro a b hab
    have hport := hexists _ _ (flows_iff.1 hab)
    rw [isSome_port?] at hport
    obtain ⟨d, hd⟩ := Option.isSome_iff_exists.1 hport
    exact mem_ids.2 (node?_isSome_of_direction? hd)
  have hsorts := hg.exists_topologicalOrder_iff
  rw [Acyclic, ← not_exists] at hsorts
  rw [← flows_eq]
  refine ⟨hsorts, ?_, fun order horder => ?_, fun s id => hg.lookup_of_releases⟩
  · rw [← Bool.not_eq_false, hasCycle_eq_false_iff_exists, hsorts, not_not]
  · have hperm := (hg.of_topologicalOrder horder).1
    exact ⟨hperm.nodup_iff.2 g.nodup_ids, fun id => hperm.mem_iff,
      fun a b hab => hg.idxOf_lt_of_flows horder (flows_iff.2 hab)⟩

/-! ## Edited graphs -/

theorem WellFormed.hasCycle_eq_false_iff (hg : g.WellFormed) : g.hasCycle = false ↔ g.Acyclic :=
  hasCycle_eq_false_iff_exists.trans hg.anchored.exists_topologicalOrder_iff

theorem Acyclic.exists_topologicalOrder (h : g.Acyclic) (hg : g.WellFormed) :
    ∃ order, g.topologicalOrder = some order := hg.anchored.exists_topologicalOrder h

/-- In every edited graph the primary edges form no cycle, the search for a cycle finds none, and
the nodes can be sorted. -/
theorem Edited.sorted_without_cycle (h : g.Edited) :
    (∀ a, ¬TransGen (fun a b => PortRef.input b ∈ g.peers (.output a)) a a) ∧
      g.hasCycle = false ∧ ∃ order, g.topologicalOrder = some order := by
  have hflows : (fun a b => PortRef.input b ∈ g.peers (.output a)) = g.Flows := by
    funext a b
    exact propext flows_iff.symm
  refine ⟨?_, h.wellFormed.hasCycle_eq_false_iff.2 h.acyclic,
    h.acyclic.exists_topologicalOrder h.wellFormed⟩
  rw [hflows]
  exact h.acyclic

/-- Three nodes in a row.  The edge back to the first is refused, until a copy of the first, which
brings no edges along, stands in the place of the second. -/
def turned : Graph :=
  let nodes := [0, 1, 2].foldl (fun g _ => (g.createNode "LayerDense" default).1) ({} : Graph)
  let row := ((nodes.connect (.output 0) (.input 1)).1.connect (.output 1) (.input 2)).1
  let refused := (row.connect (.output 2) (.input 0)).1
  let cut := refused.insertAs 1 ((refused.node? 0).getD (.new 0 "LayerDense" none default))
  ((cut.connect (.output 2) (.input 0)).1.connect (.output 0) (.input 1)).1

theorem edited_turned : turned.Edited :=
  .connect _ _ (.connect _ _ (.insertAs _ _ (.connect _ _ (.connect _ _ (.connect _ _
    (.createNode _ _ (.createNode _ _ (.createNode _ _ (.empty Catalog.builtin)))))))))

theorem sorted_turned : turned.hasCycle = false ∧ ∃ order, turned.topologicalOrder = some order :=
  edited_turned.sorted_without_cycle.2

example : turned.topologicalOrder = some [2, 0, 1] := by decide +kernel

/-- An edge that no connection would make: 2 feeds 0, which feeds 1, which feeds 0. -/
def looped : Graph := turned.link (.output 1) (.input 0)

theorem wellFormed_looped : looped.WellFormed :=
  edited_turned.wellFormed.link
    ⟨⟨.output, by decide +kernel, by decide +kernel⟩, by decide, by decide⟩ (by decide +kernel)

theorem exists_of_mem_peers_looped : ∀ p q, q ∈ looped.peers p → (looped.port? q).isSome := by
  intro p q hq
  obtain ⟨d, -, hd⟩ := wellFormed_looped.directed hq
  rw [isSome_port?, hd, Option.isSome_some]

theorem decides_looped : (∀ p q, q ∈ looped.peers p → (looped.port? q).isSome) ∧
    looped.hasCycle = true ∧ ¬∃ order, looped.topologicalOrder = some order := by
  obtain ⟨hsorts, hcycle, -⟩ := topologicalOrder_decides exists_of_mem_peers_looped
  have hround : ∃ a, TransGen (fun a b => PortRef.input b ∈ looped.peers (.output a)) a a :=
    ⟨0, .tail (b := 1) (.single (by decide +kernel)) (by decide +kernel)⟩
  exact ⟨exists_of_mem_peers_looped, hcycle.2 hround, fun horder => hsorts.1 horder hround⟩

end Graph

end LayerNet
