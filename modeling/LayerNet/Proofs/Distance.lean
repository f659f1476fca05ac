import LayerNet.Graph.Connect
import LayerNet.Proofs.Flow
import Mathlib.Order.Lattice.Nat

/-!
# Searches find the nearest ids first

`Hops.Walks` and `Graph.Walks` count the steps of a path, and `Graph.distance` is the length of the
shortest one.  A breadth-first search lists what it finds in the order of these distances.

The queue of a search holds ids at two distances only: those at the distance `n` that the search has
come to, and behind them ids that are one step further.  Ids are marked as seen when they leave the
queue, so an id may wait there more than once, and under a greater distance than its own; it is seen
by the time that this entry comes up.  `Hops.Frontier` is the invariant that says so.  Each turn of
the search keeps it (`Frontier.skip`, `Frontier.visit`), and so does going on to the next distance
(`Frontier.advance`).

`Graph.reachableFrom_nearest` is what follows for the search of a graph.
-/

namespace LayerNet

namespace Hops

variable {h : Hops} {avoid near far queue seen : List NodeId} {a b c id : NodeId} {n : Nat}

/-! ## Paths with their lengths -/

/-- A path of `n` steps leads from `a` to an id without entering an id of `avoid`, not even at its
ends. -/
inductive Walks (h : Hops) (avoid : List NodeId) (a : NodeId) : Nat → NodeId → Prop
  | here (ha : a ∉ avoid) : Walks h avoid a 0 a
  | step {n : Nat} {b c : NodeId} (hab : Walks h avoid a n b) (hbc : c ∈ h.next b)
      (hc : c ∉ avoid) : Walks h avoid a (n + 1) c

theorem Walks.leads (hab : h.Walks avoid a n b) : h.Leads avoid a b := by
  induction hab with
  | here ha => exact .refl ha
  | step _ hbc hc ih => exact ih.tail hbc hc

theorem leads_iff_walks : h.Leads avoid a b ↔ ∃ n, h.Walks avoid a n b := by
  constructor
  · rintro ⟨ha, hpath⟩
    induction hpath with
    | refl => exact ⟨0, .here ha⟩
    | tail _ hbc ih =>
      obtain ⟨n, hab⟩ := ih
      exact ⟨n + 1, .step hab hbc.1 hbc.2⟩
  · rintro ⟨n, hab⟩
    exact hab.leads

/-! ## The invariant of a search -/

/-- A search from `a` has come to the distance `n`.  The queue holds ids of this distance, `near`,
and behind them ids that are one step further, `far`. -/
structure Frontier (h : Hops) (avoid : List NodeId) (a : NodeId) (n : Nat)
    (near far seen : List NodeId) : Prop where
  nearby : ∀ x ∈ near, x ∈ avoid ∨ h.Walks avoid a n x
  further : ∀ x ∈ far, x ∈ avoid ∨ h.Walks avoid a (n + 1) x
  avoided : avoid ⊆ seen
  /-- All that is nearer was seen. -/
  behind : ∀ m < n, ∀ x, h.Walks avoid a m x → x ∈ seen
  /-- What is not yet seen at this distance waits. -/
  here : ∀ x, h.Walks avoid a n x → x ∈ seen ∨ x ∈ near
  /-- The steps of the ids that were seen are in the queue, or were. -/
  onward : ∀ x ∈ seen, x ∉ avoid → ∀ y ∈ h.next x, y ∈ seen ∨ y ∈ near ∨ y ∈ far

theorem frontier_start (h : Hops) (avoid : List NodeId) (a : NodeId) :
    h.Frontier avoid a 0 [a] [] avoid where
  nearby x hx := by
    obtain rfl := List.mem_singleton.1 hx
    by_cases ha : x ∈ avoid
    · exact Or.inl ha
    · exact Or.inr (.here ha)
  further x hx := absurd hx List.not_mem_nil
  avoided := List.Subset.refl avoid
  behind m hm := absurd hm (Nat.not_lt_zero m)
  here x hx := by
    cases hx
    exact Or.inr (List.mem_singleton_self _)
  onward x hx hnot := absurd hx hnot

/-- An id that was seen before leaves the queue. -/
theorem Frontier.skip (hf : h.Frontier avoid a n (id :: near) far seen) (hid : id ∈ seen) :
    h.Frontier avoid a n near far seen where
  nearby x hx := hf.nearby x (List.mem_cons_of_mem _ hx)
  further := hf.further
  avoided := hf.avoided
  behind := hf.behind
  here x hx := by
    rcases hf.here x hx with hx | hx
    · exact Or.inl hx
    · rcases List.mem_cons.1 hx with rfl | hx
      · exact Or.inl hid
      · exact Or.inr hx
  onward x hx hnot y hy := by
    rcases hf.onward x hx hnot y hy with hy | hy | hy
    · exact Or.inl hy
    · rcases List.mem_cons.1 hy with rfl | hy
      · exact Or.inl hid
      · exact Or.inr (Or.inl hy)
    · exact Or.inr (Or.inr hy)

/-- An id that was not seen before stands at the distance of the search. -/
theorem Frontier.walks (hf : h.Frontier avoid a n (id :: near) far seen) (hid : id ∉ seen) :
    h.Walks avoid a n id :=
  (hf.nearby id List.mem_cons_self).resolve_left fun hm => hid (hf.avoided hm)

/-- An id is seen, and its steps go to the end of the queue. -/
theorem Frontier.visit (hf : h.Frontier avoid a n (id :: near) far seen) (hid : id ∉ seen) :
    h.Frontier avoid a n near (far ++ h.next id) (id :: seen) where
  nearby x hx := hf.nearby x (List.mem_cons_of_mem _ hx)
  further x hx := by
    rcases List.mem_append.1 hx with hx | hx
    · exact hf.further x hx
    · by_cases hm : x ∈ avoid
      · exact Or.inl hm
      · exact Or.inr (.step (hf.walks hid) hx hm)
  avoided := fun x hx => List.mem_cons_of_mem _ (hf.avoided hx)
  behind m hm x hx := List.mem_cons_of_mem _ (hf.behind m hm x hx)
  here x hx := by
    rcases hf.here x hx with hx | hx
    · exact Or.inl (List.mem_cons_of_mem _ hx)
    · rcases List.mem_cons.1 hx with rfl | hx
      · exact Or.inl List.mem_cons_self
      · exact Or.inr hx
  onward x hx hnot y hy := by
    rcases List.mem_cons.1 hx with rfl | hx
    · exact Or.inr (Or.inr (List.mem_append_right _ hy))
    · rcases hf.onward x hx hnot y hy with hy | hy | hy
      · exact Or.inl (List.mem_cons_of_mem _ hy)
      · rcases List.mem_cons.1 hy with rfl | hy
        · exact Or.inl List.mem_cons_self
        · exact Or.inr (Or.inl hy)
      · exact Or.inr (Or.inr (List.mem_append_left _ hy))

/-- When no id of the distance waits any more, the search goes on to the next distance. -/
theorem Frontier.advance (hf : h.Frontier avoid a n [] far seen) :
    h.Frontier avoid a (n + 1) far [] seen where
  nearby := hf.further
  further x hx := absurd hx List.not_mem_nil
  avoided := hf.avoided
  behind m hm x hx := by
    rcases Nat.lt_succ_iff_lt_or_eq.1 hm with hm | rfl
    · exact hf.behind m hm x hx
    · exact (hf.here x hx).resolve_right List.not_mem_nil
  here x hx := by
    cases hx with
    | step hab hbc hc =>
      have hb := (hf.here _ hab).resolve_right List.not_mem_nil
      exact (hf.onward _ hb hab.leads.not_mem x hbc).imp_right fun hx =>
        hx.resolve_left List.not_mem_nil
  onward x hx hnot y hy :=
    (hf.onward x hx hnot y hy).imp_right fun hy => Or.inl (hy.resolve_left List.not_mem_nil)

/-- The first id of the queue stands at the distance of the search, or at the next one. -/
theorem Frontier.exists_cons (hf : h.Frontier avoid a n near far seen)
    (hqueue : near ++ far = id :: queue) :
    ∃ n near far, near ++ far = queue ∧ h.Frontier avoid a n (id :: near) far seen := by
  cases near with
  | nil =>
    rw [List.nil_append] at hqueue
    subst hqueue
    exact ⟨n + 1, queue, [], List.append_nil _, hf.advance⟩
  | cons x near =>
    obtain ⟨rfl, htail⟩ := List.cons.inj (List.cons_append .. ▸ hqueue)
    exact ⟨n, near, far, htail, hf⟩

/-- A search lists no id before one that is nearer. -/
theorem Frontier.pairwise_explore (hf : h.Frontier avoid a n near far seen)
    (hqueue : near ++ far = queue) :
    (h.explore queue seen).Pairwise fun b c =>
      ∀ m, h.Walks avoid a m c → ∃ k ≤ m, h.Walks avoid a k b := by
  induction queue, seen using explore_induction (h := h) generalizing n near far with
  | nil seen =>
    rw [explore_nil]
    exact .nil
  | skip id queue seen hid ih =>
    obtain ⟨n, near, far, hqueue, hf⟩ := hf.exists_cons hqueue
    rw [explore_cons, if_pos hid]
    exact ih (hf.skip hid) hqueue
  | visit id queue seen hid ih =>
    obtain ⟨n, near, far, rfl, hf⟩ := hf.exists_cons hqueue
    rw [explore_cons, if_neg hid, List.pairwise_cons]
    refine ⟨fun c hc m hm => ⟨n, ?_, hf.walks hid⟩, ih (hf.visit hid) (List.append_assoc ..).symm⟩
    -- what is nearer than the visited id was seen before, so it is not found any more
    by_contra hlt
    have hseen := hf.behind m (Nat.not_le.1 hlt) c hm
    obtain ⟨x, -, hleads⟩ := mem_explore.1 hc
    exact hleads.not_mem (List.mem_cons_of_mem _ hseen)

end Hops

namespace Graph

variable {g : Graph} {a b : NodeId} {stop : Option NodeId} {n : Nat}

/-- A path of `n` primary edges leads from `start` to a node and never enters `stop`. -/
inductive Walks (g : Graph) (stop : Option NodeId) (start : NodeId) : Nat → NodeId → Prop
  | here (hstart : some start ≠ stop) : Walks g stop start 0 start
  | step {n : Nat} {a b : NodeId} (ha : Walks g stop start n a)
      (hab : PortRef.input b ∈ g.peers (.output a)) (hb : some b ≠ stop) :
      Walks g stop start (n + 1) b

theorem walks_iff : g.Walks stop a n b ↔ g.flow.Walks stop.toList a n b := by
  have hstop : ∀ x, x ∉ stop.toList ↔ some x ≠ stop := by simp [eq_comm]
  constructor
  · intro hab
    induction hab with
    | here ha => exact .here ((hstop _).2 ha)
    | step _ hbc hc ih => exact .step ih (flows_iff.2 hbc) ((hstop _).2 hc)
  · intro hab
    induction hab with
    | here ha => exact .here ((hstop _).1 ha)
    | step _ hbc hc ih => exact .step ih (flows_iff.1 hbc) ((hstop _).1 hc)

/-- The length of the shortest path of primary edges that never enters `stop`. -/
noncomputable def distance (g : Graph) (stop : Option NodeId) (start goal : NodeId) : Nat :=
  sInf {n | g.Walks stop start n goal}

/-- A breadth-first search lists exactly the ids to which a path leads, each once, and none before
one that is nearer; and whether one id reaches another is whether it is listed. -/
theorem reachableFrom_nearest (g : Graph) (start : NodeId) (stop : Option NodeId) :
    (∀ id, id ∈ g.reachableFrom start stop ↔ ∃ n, g.Walks stop start n id) ∧
      (g.reachableFrom start stop).Nodup ∧
      (g.reachableFrom start stop).Pairwise
        (fun a b => g.distance stop start a ≤ g.distance stop start b) ∧
      ∀ goal, g.reaches start goal = true ↔ goal ∈ g.reachableFrom start none := by
  have hmem : ∀ id, id ∈ g.reachableFrom start stop ↔ ∃ n, g.Walks stop start n id := by
    intro id
    rw [mem_reachableFrom, Leads, Hops.leads_iff_walks]
    simp only [walks_iff]
  refine ⟨hmem, Hops.nodup_explore .., ?_, fun goal => ?_⟩
  · have hsorted := (g.flow.frontier_start stop.toList start).pairwise_explore rfl
    refine hsorted.imp_of_mem fun {a b} ha hb hnearest => ?_
    obtain ⟨k, hle, hk⟩ := hnearest _ (walks_iff.1 (Nat.sInf_mem ((hmem b).1 hb)))
    exact Nat.le_trans (Nat.sInf_le (walks_iff.2 hk)) hle
  · rw [reaches_iff, mem_reachableFrom, leads_none_iff]

/-- Four nodes in a row, and an edge from the first to the last. -/
def shortcut : Graph :=
  let nodes := [0, 1, 2, 3].foldl (fun g _ => (g.createNode "LayerParallel" default).1) ({} : Graph)
  [(0, 1), (1, 2), (2, 3), (0, 3)].foldl
    (fun g e => (g.connect (.output e.1) (.input e.2)).1) nodes

example : shortcut.reachableFrom 0 none = [0, 1, 3, 2] ∧
    shortcut.reachableFrom 0 (some 1) = [0, 3] := by decide +kernel

end Graph

end LayerNet
