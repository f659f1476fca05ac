import LayerNet.Proofs.Lawful

/-!
# Edges on trial

Before two ports are joined, the subgraphs of the special nodes are collected as if they were.  The
rule for subgraphs is only as good as this look ahead: it has to see exactly the graph that the
connection would make.

* `Wiring.Paired.mem_subgraph` — the two searches for a subgraph stand for a closure
  (`Graph.Encloses`), with or without an edge on trial.  All they need is that edges are seen from
  both of their ends.
* `Wiring.Proper.edgeSet_eq` — the edges of a wiring are those of the graph and the one on trial.
  This may be any edge from an output to an input of another node: one that is there already, or
  one between two auxiliary ports, which no connection would make.
* `Wiring.Proper.foresees` — what a wiring collects is what the graph with the new edge has, and a
  new edge takes no node out of a subgraph.
-/

namespace LayerNet

open Relation

variable {E E' : EdgeSet} {s x y id : NodeId}

/-- A path that does not pass through `s` does not end there. -/
theorem EdgeSet.Leads.ne (h : E.Leads s x y) : y ≠ s := by
  rcases h.2.cases_tail with rfl | ⟨z, -, -, hy⟩
  · exact h.1
  · exact hy

/-! ## What a special node encloses -/

namespace Graph

variable {g : Graph} {d : Direction}

/-- Over the edges `E`, a primary port of `x` is a peer of an auxiliary port of `s` with the given
direction. -/
def Touches (g : Graph) (E : EdgeSet) (d : Direction) (s x : NodeId) : Prop :=
  ∃ i slot, E (.aux s i) ⟨x, slot⟩ ∧ slot.isPrimary = true ∧ g.direction? (.aux s i) = some d

/-- Over the edges `E`, the node follows a peer of an auxiliary output of `s`, or leads to a peer of
an auxiliary input of `s`, along primary edges that do not pass through `s`. -/
def Encloses (g : Graph) (E : EdgeSet) (s id : NodeId) : Prop :=
  (∃ x, g.Touches E .output s x ∧ E.Leads s x id) ∨ ∃ x, g.Touches E .input s x ∧ E.Leads s id x

theorem Touches.mono (h : E ≤ E') (hx : g.Touches E d s x) : g.Touches E' d s x := by
  obtain ⟨i, slot, hpeer, hx⟩ := hx
  exact ⟨i, slot, h _ _ hpeer, hx⟩

theorem Encloses.mono (h : E ≤ E') (hid : g.Encloses E s id) : g.Encloses E' s id := by
  rcases hid with ⟨x, hx, hpath⟩ | ⟨x, hx, hpath⟩
  · exact Or.inl ⟨x, hx.mono h, hpath.mono h⟩
  · exact Or.inr ⟨x, hx.mono h, hpath.mono h⟩

theorem Encloses.ne (h : g.Encloses E s id) : id ≠ s := by
  rcases h with ⟨x, -, hpath⟩ | ⟨x, -, hpath⟩
  · exact hpath.ne
  · exact hpath.1

end Graph

namespace Wiring

variable {w : Wiring} {d : Direction}

/-! ## Both searches -/

/-- The edges that a wiring shows. -/
def edgeSet (w : Wiring) : EdgeSet := fun p q => q ∈ w.peers p

/-- Every edge is seen from both of its ends, which are ports of nodes in the graph. -/
structure Paired (w : Wiring) : Prop where
  symm : ∀ {p q}, q ∈ w.peers p → p ∈ w.peers q
  mem_ids : ∀ {p q}, q ∈ w.peers p → q.node ∈ w.graph.ids

theorem mem_auxPeers_iff_touches : x ∈ w.auxPeers s d ↔ w.graph.Touches w.edgeSet d s x :=
  mem_auxPeers

theorem leads_forward_iff : w.forward.Leads [s] x y ↔ w.edgeSet.Leads s x y := by
  simp only [Hops.Leads, EdgeSet.Leads, List.mem_singleton, forward, mem_peerNodes]
  rfl

theorem Paired.leads_backward_iff (hw : w.Paired) :
    w.backward.Leads [s] x y ↔ w.edgeSet.Leads s y x := by
  have hback : ∀ u v, v ∈ w.forward.next u ↔ u ∈ w.backward.next v := fun u v =>
    mem_peerNodes.trans (Iff.trans ⟨hw.symm, hw.symm⟩ mem_peerNodes.symm)
  exact (Hops.leads_reverse_iff hback).trans leads_forward_iff

/-- What a special node encloses are nodes of the graph. -/
theorem Paired.mem_ids_of_encloses (hw : w.Paired) (h : w.graph.Encloses w.edgeSet s id) :
    id ∈ w.graph.ids := by
  rcases h with ⟨x, ⟨i, slot, hpeer, -⟩, hpath⟩ | ⟨x, ⟨i, slot, hpeer, -⟩, hpath⟩
  · rcases hpath.2.cases_tail with rfl | ⟨y, -, hy, -⟩
    · exact hw.mem_ids hpeer
    · exact hw.mem_ids hy
  · rcases hpath.2.cases_head with rfl | ⟨y, ⟨hy, -⟩, -⟩
    · exact hw.mem_ids hpeer
    · exact hw.mem_ids (hw.symm hy)

/-- The subgraph of a special node is what it encloses. -/
theorem Paired.mem_subgraph (hw : w.Paired) :
    id ∈ w.subgraph s ↔ w.graph.Encloses w.edgeSet s id := by
  have hfront : id ∈ w.forward.explore (w.auxPeers s .output) [s] ↔
      ∃ x, w.graph.Touches w.edgeSet .output s x ∧ w.edgeSet.Leads s x id := by
    simp only [Hops.mem_explore, mem_auxPeers_iff_touches, leads_forward_iff]
  have hback : id ∈ w.backward.explore (w.auxPeers s .input) [s] ↔
      ∃ x, w.graph.Touches w.edgeSet .input s x ∧ w.edgeSet.Leads s id x := by
    simp only [Hops.mem_explore, mem_auxPeers_iff_touches, hw.leads_backward_iff]
  rw [subgraph, List.mem_filter, decide_eq_true_eq, hfront, hback]
  exact ⟨And.right, fun h => ⟨hw.mem_ids_of_encloses h, h⟩⟩

/-! ## One more edge -/

/-- An edge on trial leads from an output to an input of another node. -/
def Proper (w : Wiring) : Prop :=
  ∀ a b, w.extra = some (a, b) → w.graph.direction? a = some .output ∧
    w.graph.direction? b = some .input ∧ a.node ≠ b.node

/-- The edges of the graph together with the one on trial. -/
def allEdges (w : Wiring) : EdgeSet :=
  match w.extra with
  | none => w.graph.edgeSet
  | some (a, b) => w.graph.edgeSet ⊔ EdgeSet.between a b

/-- The graph in which the edge on trial has been made. -/
def linked (w : Wiring) : Graph :=
  match w.extra with
  | none => w.graph
  | some (a, b) => w.graph.link a b

theorem le_allEdges (w : Wiring) : w.graph.edgeSet ≤ w.allEdges := by
  rw [allEdges]
  split
  · exact le_rfl
  · exact le_sup_left

theorem Proper.isSome_port? (hw : w.Proper) {a b : PortRef} (h : w.extra = some (a, b)) :
    (w.graph.port? a).isSome ∧ (w.graph.port? b).isSome ∧ a ≠ b := by
  obtain ⟨ha, hb, hne⟩ := hw a b h
  rw [Graph.isSome_port?, Graph.isSome_port?, ha, hb]
  exact ⟨rfl, rfl, fun e => hne (congrArg PortRef.node e)⟩

theorem Proper.edgeSet_eq (hw : w.Proper) : w.edgeSet = w.allEdges := by
  obtain ⟨g, _ | ⟨a, b⟩⟩ := w
  · rfl
  · obtain ⟨ha, hb, hne⟩ := hw.isSome_port? rfl
    funext p q
    have hmem : q ∈ peers ⟨g, some (a, b)⟩ p ↔ q ∈ g.peers p ∨ p = a ∧ q = b ∨ p = b ∧ q = a := by
      rw [Graph.peers_trial ha hb hne, Graph.mem_peers_link ha hb hne]
    exact propext hmem

/-- In a well-formed graph an edge on trial is seen from both of its ends. -/
theorem Proper.paired (hw : w.Proper) (hg : w.graph.WellFormed) : w.Paired := by
  have hsym : ∀ {p q}, w.allEdges p q → w.allEdges q p ∧ q.node ∈ w.graph.ids := by
    obtain ⟨g, _ | ⟨a, b⟩⟩ := w
    · exact fun h => ⟨hg.symm h, hg.peer_mem_ids h⟩
    · obtain ⟨ha, hb, -⟩ := hw a b rfl
      rintro p q (h | ⟨rfl, rfl⟩ | ⟨rfl, rfl⟩)
      · exact ⟨Or.inl (hg.symm h), hg.peer_mem_ids h⟩
      · exact ⟨Or.inr (Or.inr ⟨rfl, rfl⟩), Graph.mem_ids.2 (Graph.node?_isSome_of_direction? hb)⟩
      · exact ⟨Or.inr (Or.inl ⟨rfl, rfl⟩), Graph.mem_ids.2 (Graph.node?_isSome_of_direction? ha)⟩
  rw [← hw.edgeSet_eq] at hsym
  exact ⟨fun h => (hsym h).1, fun h => (hsym h).2⟩

theorem Proper.subgraph_eq_linked (hw : w.Proper) (s : NodeId) :
    w.subgraph s = w.linked.subgraph s := by
  obtain ⟨g, _ | ⟨a, b⟩⟩ := w
  · rfl
  · obtain ⟨ha, hb, hne⟩ := hw.isSome_port? rfl
    exact Graph.subgraph_trial ha hb hne s

theorem Proper.membership_eq_linked (hw : w.Proper) : w.membership = w.linked.membership := by
  obtain ⟨g, _ | ⟨a, b⟩⟩ := w
  · rfl
  · obtain ⟨ha, hb, hne⟩ := hw.isSome_port? rfl
    exact Graph.membership_trial ha hb hne

/-- In an edited graph with at most one edge on trial, the subgraph of a special node is what it
encloses over all of these edges, and never the special node itself.  The subgraphs and their
owners are those of the graph in which the edge has been made, and none of them has lost a node. -/
theorem Proper.foresees (hg : w.graph.Edited) (hw : w.Proper) :
    (∀ s id, id ∈ w.subgraph s ↔ w.graph.Encloses w.allEdges s id) ∧
      (∀ s, s ∉ w.subgraph s) ∧
      (∀ s, w.subgraph s = w.linked.subgraph s) ∧
      w.membership = w.linked.membership ∧
      ∀ s, w.graph.subgraph s ⊆ w.subgraph s := by
  have hpaired := hw.paired hg.wellFormed
  have hmem : ∀ s id, id ∈ w.subgraph s ↔ w.graph.Encloses w.allEdges s id := fun s id => by
    rw [hpaired.mem_subgraph, hw.edgeSet_eq]
  have hbefore : w.graph.wiring.Paired := ⟨hg.wellFormed.symm, hg.wellFormed.peer_mem_ids⟩
  refine ⟨hmem, fun s hs => ((hmem s s).1 hs).ne rfl, hw.subgraph_eq_linked,
    hw.membership_eq_linked, fun s id hid => (hmem s id).2 ?_⟩
  exact (hbefore.mem_subgraph.1 hid).mono w.le_allEdges

end Wiring

namespace Graph

/-- The edge from one subgraph of `nested` into the other, which is refused, would give the node at
its end a second owner. -/
theorem foresees_nested :
    nested.Edited ∧ Wiring.Proper ⟨nested, some (.output 2, .input 3)⟩ ∧
      Wiring.membership ⟨nested, some (.output 2, .input 3)⟩ =
        (nested.link (.output 2) (.input 3)).membership ∧
      (nested.link (.output 2) (.input 3)).membership = [(1, [0]), (2, [0]), (3, [0, 1])] := by
  have hproper : Wiring.Proper ⟨nested, some (.output 2, .input 3)⟩ := by
    rintro a b ⟨⟩
    exact ⟨by decide +kernel, by decide +kernel, by decide⟩
  exact ⟨edited_nested, hproper, (Wiring.Proper.foresees edited_nested hproper).2.2.2.1,
    by decide +kernel⟩

end Graph

end LayerNet
