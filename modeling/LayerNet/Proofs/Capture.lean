import LayerNet.Proofs.Edges
import Mathlib.Data.Finset.Card

/-!
# What special nodes capture

The search that collects the subgraph of a special node stands for a closure: `mem_subgraph` says
that the members are the nodes that follow a node fed by an auxiliary output, and the nodes that lead
to a node read by an auxiliary input, on paths that do not pass through the special node.

`mem_owners` and `isCaptured_iff` read the ownership table of a graph in the same terms.  The last
section gives the inductions along the edges of a graph without cycles, from the front and from the
back.
-/

namespace LayerNet

open Relation

namespace Graph

variable {g : Graph} {s a b id : NodeId}

/-! ## The auxiliary ports of a special node -/

/-- An auxiliary output of `s` feeds the node `a`. -/
def Enters (g : Graph) (s a : NodeId) : Prop := ∃ i, PortRef.input a ∈ g.peers (.aux s i)

/-- An auxiliary input of `s` reads from the node `a`. -/
def Exits (g : Graph) (s a : NodeId) : Prop := ∃ i, PortRef.output a ∈ g.peers (.aux s i)

/-- Only special nodes have auxiliary ports. -/
theorem isSpecial_of_mem_peers_aux {i : Nat} {q : PortRef} (h : q ∈ g.peers (.aux s i)) :
    ∃ n, g.node? s = some n ∧ n.isSpecial = true := by
  cases hn : g.node? s with
  | none => simp [peers, port?, PortRef.aux, hn] at h
  | some n =>
    refine ⟨n, rfl, ?_⟩
    cases hs : n.special with
    | some kind => simp [Node.isSpecial, hs]
    | none =>
      have hlen := n.aux_length
      rw [hs] at hlen
      have haux : n.aux = [] := List.eq_nil_of_length_eq_zero hlen
      simp [peers, port?, PortRef.aux, hn, Node.port?, haux] at h

theorem Enters.isSpecial (h : g.Enters s a) : ∃ n, g.node? s = some n ∧ n.isSpecial = true := by
  obtain ⟨i, h⟩ := h
  exact isSpecial_of_mem_peers_aux h

theorem Exits.isSpecial (h : g.Exits s a) : ∃ n, g.node? s = some n ∧ n.isSpecial = true := by
  obtain ⟨i, h⟩ := h
  exact isSpecial_of_mem_peers_aux h

end Graph

namespace Wiring

variable {w : Wiring} {s a : NodeId} {d : Direction}

theorem mem_auxPorts {p : PortRef} :
    p ∈ w.auxPorts s d ↔ ∃ i, p = .aux s i ∧ w.graph.direction? (.aux s i) = some d := by
  rw [auxPorts]
  cases hn : w.graph.node? s with
  | none => simp [Graph.direction?, PortRef.aux, hn]
  | some n =>
    simp only [List.mem_map, List.mem_filter, decide_eq_true_eq, Graph.direction?, PortRef.aux, hn,
      Option.bind_some, Node.direction?, Option.map_eq_some_iff, List.mem_zipIdx_iff_getElem?]
    constructor
    · rintro ⟨⟨port, i⟩, ⟨hport, hd⟩, rfl⟩
      exact ⟨i, rfl, port, hport, hd⟩
    · rintro ⟨i, rfl, port, hport, hd⟩
      exact ⟨(port, i), ⟨hport, hd⟩, rfl⟩

theorem mem_auxPeers :
    a ∈ w.auxPeers s d ↔
      ∃ i slot, ⟨a, slot⟩ ∈ w.peers (.aux s i) ∧ slot.isPrimary = true ∧
        w.graph.direction? (.aux s i) = some d := by
  simp only [auxPeers, List.mem_map, List.mem_flatMap, List.mem_filter, mem_auxPorts]
  constructor
  · rintro ⟨⟨node, slot⟩, ⟨p, ⟨i, rfl, hd⟩, hpeer, hslot⟩, rfl⟩
    exact ⟨i, slot, hpeer, hslot, hd⟩
  · rintro ⟨i, slot, hpeer, hslot, hd⟩
    exact ⟨⟨a, slot⟩, ⟨_, ⟨i, rfl, hd⟩, hpeer, hslot⟩, rfl⟩

end Wiring

namespace Graph

variable {g : Graph} {s a b id : NodeId}

theorem mem_auxPeers {d : Direction} :
    a ∈ g.wiring.auxPeers s d ↔
      ∃ i slot, ⟨a, slot⟩ ∈ g.peers (.aux s i) ∧ slot.isPrimary = true ∧
        g.direction? (.aux s i) = some d :=
  Wiring.mem_auxPeers

/-- What a primary port can be joined to by its direction. -/
theorem WellFormed.direction_of_peer (hg : g.WellFormed) {p q : PortRef} {d : Direction}
    (h : q ∈ g.peers p) (hp : g.direction? p = some d) : g.direction? q = some d.opposite := by
  obtain ⟨e, he, hq⟩ := hg.directed h
  rw [hp, Option.some.injEq] at he
  rw [hq, he]

theorem direction?_of_mem_ids {p : PortRef} (h : p.node ∈ g.ids) :
    (p.slot = .input → g.direction? p = some .input) ∧
      (p.slot = .output → g.direction? p = some .output) := by
  obtain ⟨n, hn⟩ := exists_node? h
  exact ⟨fun e => by simp [direction?, hn, e, Node.direction?],
    fun e => by simp [direction?, hn, e, Node.direction?]⟩

theorem WellFormed.mem_auxPeers_output (hg : g.WellFormed) :
    a ∈ g.wiring.auxPeers s .output ↔ g.Enters s a := by
  rw [mem_auxPeers]
  constructor
  · rintro ⟨i, slot, hpeer, hslot, hd⟩
    have hq := hg.direction_of_peer hpeer hd
    cases slot with
    | input => exact ⟨i, hpeer⟩
    | output =>
      rw [(direction?_of_mem_ids (hg.peer_mem_ids hpeer)).2 rfl] at hq
      simp [Direction.opposite] at hq
    | aux j => simp [Slot.isPrimary] at hslot
  · rintro ⟨i, hpeer⟩
    have hin := (direction?_of_mem_ids (hg.peer_mem_ids hpeer)).1 rfl
    exact ⟨i, .input, hpeer, rfl, hg.direction_of_peer (hg.symm hpeer) hin⟩

theorem WellFormed.mem_auxPeers_input (hg : g.WellFormed) :
    a ∈ g.wiring.auxPeers s .input ↔ g.Exits s a := by
  rw [mem_auxPeers]
  constructor
  · rintro ⟨i, slot, hpeer, hslot, hd⟩
    have hq := hg.direction_of_peer hpeer hd
    cases slot with
    | input =>
      rw [(direction?_of_mem_ids (hg.peer_mem_ids hpeer)).1 rfl] at hq
      simp [Direction.opposite] at hq
    | output => exact ⟨i, hpeer⟩
    | aux j => simp [Slot.isPrimary] at hslot
  · rintro ⟨i, hpeer⟩
    have hout := (direction?_of_mem_ids (hg.peer_mem_ids hpeer)).2 rfl
    exact ⟨i, .output, hpeer, rfl, hg.direction_of_peer (hg.symm hpeer) hout⟩

/-! ## Edges read from their ends -/

theorem WellFormed.mem_predecessors (hg : g.WellFormed) : a ∈ g.predecessors b ↔ g.Flows a b := by
  rw [predecessors, mem_peerNodes, flows_iff]
  exact ⟨hg.symm, hg.symm⟩

theorem WellFormed.flows_mem_ids (hg : g.WellFormed) (h : g.Flows a b) : b ∈ g.ids :=
  hg.peer_mem_ids (flows_iff.1 h)

theorem WellFormed.leads_mem_ids (hg : g.WellFormed) {stop : Option NodeId}
    (h : g.Leads stop a b) (ha : a ∈ g.ids) : b ∈ g.ids :=
  h.induction ha fun _ _ _ _ hxy _ => hg.flows_mem_ids hxy

/-- A search backward follows the paths of the graph from their ends. -/
theorem WellFormed.leads_backward (hg : g.WellFormed) :
    g.wiring.backward.Leads [s] a b ↔ g.Leads (some s) b a :=
  Hops.leads_reverse_iff fun x y => (hg.mem_predecessors (a := x) (b := y)).symm

/-! ## Membership -/

/-- A special node captures the nodes that follow one fed by its auxiliary outputs, and the nodes
that lead to one read by its auxiliary inputs, on paths that do not pass through itself. -/
theorem WellFormed.mem_subgraph (hg : g.WellFormed) :
    id ∈ g.subgraph s ↔
      (∃ a, g.Enters s a ∧ g.Leads (some s) a id) ∨ ∃ a, g.Exits s a ∧ g.Leads (some s) id a := by
  have hfront : id ∈ g.wiring.forward.explore (g.wiring.auxPeers s .output) [s] ↔
      ∃ a, g.Enters s a ∧ g.Leads (some s) a id := by
    simp only [Hops.mem_explore, hg.mem_auxPeers_output]
    rfl
  have hback : id ∈ g.wiring.backward.explore (g.wiring.auxPeers s .input) [s] ↔
      ∃ a, g.Exits s a ∧ g.Leads (some s) id a := by
    simp only [Hops.mem_explore, hg.mem_auxPeers_input, hg.leads_backward]
  rw [subgraph, Wiring.subgraph, List.mem_filter, decide_eq_true_eq, hfront, hback]
  refine ⟨fun h => h.2, fun h => ⟨?_, h⟩⟩
  rcases h with ⟨a, ⟨i, ha⟩, hpath⟩ | ⟨a, ⟨i, ha⟩, hpath⟩
  · exact hg.leads_mem_ids hpath (hg.peer_mem_ids ha)
  · rcases ReflTransGen.cases_head hpath.2 with rfl | ⟨x, hx, -⟩
    · exact hg.peer_mem_ids ha
    · exact Flows.mem_ids hx.1

/-- No special node captures itself. -/
theorem WellFormed.not_mem_subgraph_self (hg : g.WellFormed) (s : NodeId) : s ∉ g.subgraph s := by
  rw [hg.mem_subgraph]
  rintro (⟨a, -, h⟩ | ⟨a, -, h⟩)
  · exact h.ne_stop rfl
  · exact h.start_ne_stop rfl

theorem WellFormed.isSpecial_of_mem_subgraph (hg : g.WellFormed) (h : id ∈ g.subgraph s) :
    ∃ n, g.node? s = some n ∧ n.isSpecial = true := by
  rcases hg.mem_subgraph.1 h with ⟨a, ha, -⟩ | ⟨a, ha, -⟩
  · exact ha.isSpecial
  · exact ha.isSpecial

theorem mem_ids_of_mem_subgraph (h : id ∈ g.subgraph s) : id ∈ g.ids := (List.mem_filter.1 h).1

/-! ## Ownership -/

theorem lookup_nonempty_entries (owners : NodeId → List NodeId) (ids : List NodeId) (id : NodeId) :
    (((ids.map fun i => (i, owners i)).filter fun m => !m.2.isEmpty).lookup id).getD [] =
      if id ∈ ids then owners id else [] := by
  induction ids with
  | nil => rfl
  | cons i ids ih =>
    rw [List.map_cons]
    cases howners : owners i with
    | nil =>
      rw [List.filter_cons_of_neg (by simp), ih]
      by_cases e : id = i
      · subst e
        simp [howners]
      · simp [e]
    | cons o rest =>
      rw [List.filter_cons_of_pos (by simp), List.lookup_cons]
      by_cases e : id = i
      · subst e
        simp [howners]
      · have hne : (id == i) = false := by simpa using e
        simp only [hne, ih, List.mem_cons, e, false_or]

theorem owners_eq (g : Graph) (id : NodeId) :
    g.owners id = if id ∈ g.ids then
      (g.wiring.subgraphs.filter fun s => id ∈ s.2).map Prod.fst else [] :=
  lookup_nonempty_entries
    (fun i => (g.wiring.subgraphs.filter fun s : NodeId × List NodeId => i ∈ s.2).map Prod.fst)
    g.ids id

/-- The owners of a node are the special nodes that capture it. -/
theorem WellFormed.mem_owners (hg : g.WellFormed) : s ∈ g.owners id ↔ id ∈ g.subgraph s := by
  rw [owners_eq]
  constructor
  · split
    · intro h
      simp only [Wiring.subgraphs, List.mem_map, List.mem_filter, decide_eq_true_eq] at h
      obtain ⟨-, ⟨⟨n, -, rfl⟩, hm⟩, rfl⟩ := h
      exact hm
    · exact fun h => absurd h List.not_mem_nil
  · intro h
    rw [if_pos (mem_ids_of_mem_subgraph h)]
    obtain ⟨n, hn, hs⟩ := hg.isSpecial_of_mem_subgraph h
    have hid : n.id = s := Keyed.key_of_get? hn
    simp only [Wiring.subgraphs, List.mem_map, List.mem_filter, decide_eq_true_eq]
    exact ⟨(s, g.subgraph s), ⟨⟨n, ⟨Keyed.mem_of_get? hn, hs⟩, by rw [hid]; rfl⟩, h⟩, rfl⟩

/-- A node is captured if some special node captures it. -/
theorem WellFormed.isCaptured_iff (hg : g.WellFormed) :
    g.isCaptured id = true ↔ ∃ s, id ∈ g.subgraph s := by
  simp only [isCaptured, ← hg.mem_owners]
  cases g.owners id with
  | nil => simp
  | cons s rest => simp only [List.isEmpty_cons, Bool.not_false, true_iff]; exact ⟨s, by simp⟩

theorem mem_membership {owners : List NodeId} (h : (id, owners) ∈ g.membership) :
    owners = g.owners id := by
  rw [membership, Wiring.membership, List.mem_filter, List.mem_map] at h
  obtain ⟨⟨i, hi, e⟩, -⟩ := h
  cases e
  rw [owners_eq]
  exact (if_pos hi).symm

theorem WellFormed.mem_membership_iff (hg : g.WellFormed) :
    id ∈ g.membership.map Prod.fst ↔ ∃ s, id ∈ g.subgraph s := by
  rw [← hg.isCaptured_iff]
  constructor
  · intro h
    obtain ⟨⟨i, owners⟩, hm, rfl⟩ := List.mem_map.1 h
    have hne := (List.mem_filter.1 hm).2
    rw [mem_membership hm] at hne
    exact hne
  · intro h
    rw [isCaptured, owners_eq] at h
    by_cases hi : id ∈ g.ids
    · rw [if_pos hi] at h
      exact List.mem_map.2 ⟨_, List.mem_filter.2 ⟨List.mem_map.2 ⟨id, hi, rfl⟩, h⟩, rfl⟩
    · simp [hi] at h

/-- A table of owners with at most one entry each gives every node one owner. -/
theorem WellFormed.owner_unique (hg : g.WellFormed) (h : ∀ m ∈ g.membership, m.2.length ≤ 1)
    {t : NodeId} (hs : id ∈ g.subgraph s) (ht : id ∈ g.subgraph t) : s = t := by
  obtain ⟨⟨i, owners⟩, hm, rfl⟩ := List.mem_map.1 (hg.mem_membership_iff.2 ⟨s, hs⟩)
  have hlen := h _ hm
  rw [mem_membership hm] at hlen
  have hs' := hg.mem_owners.2 hs
  have ht' := hg.mem_owners.2 ht
  cases hlist : g.owners i with
  | nil => simp [hlist] at hs'
  | cons o rest =>
    have hrest : rest = [] := by simpa [hlist] using hlen
    simp only [hlist, hrest, List.mem_singleton] at hs' ht'
    rw [hs', ht']

/-! ## Induction along the edges -/

open Classical in
/-- A relation without cycles that starts at one of finitely many nodes is well-founded. -/
theorem wellFounded_of_acyclic {r : NodeId → NodeId → Prop} (ids : List NodeId)
    (hids : ∀ a b, r a b → a ∈ ids) (h : ∀ a, ¬TransGen r a a) : WellFounded r := by
  let before : NodeId → Finset NodeId := fun b => ids.toFinset.filter fun x => TransGen r x b
  refine Subrelation.wf (r := InvImage (· < ·) fun b => (before b).card) ?_
    (InvImage.wf _ wellFounded_lt)
  intro a b hab
  refine Finset.card_lt_card ⟨fun x hx => ?_, fun hsub => ?_⟩
  · rw [Finset.mem_filter] at hx ⊢
    exact ⟨hx.1, hx.2.tail hab⟩
  · have ha : a ∈ before b := by
      rw [Finset.mem_filter, List.mem_toFinset]
      exact ⟨hids a b hab, .single hab⟩
    exact h a (Finset.mem_filter.1 (hsub ha)).2

/-- Without cycles, there is a first node on every way back. -/
theorem Acyclic.wellFounded (hg : g.Acyclic) : WellFounded g.Flows :=
  wellFounded_of_acyclic g.ids (fun _ _ hab => Flows.mem_ids hab) hg

/-- Without cycles, there is a last node on every way forward. -/
theorem Acyclic.wellFounded_swap (hg : g.Acyclic) (hw : g.WellFormed) :
    WellFounded (Function.swap g.Flows) :=
  wellFounded_of_acyclic g.ids (fun _ _ hab => hw.flows_mem_ids hab) fun a ha =>
    hg a (transGen_swap.1 ha)

end Graph

end LayerNet
