import LayerNet.Proofs.Specification

/-!
# Paths through a network

The checks of the report look at single nodes and their neighbours.  In a network that passes them,
no node is left aside all the same:

* `Sound.exists_realInput`, `Sound.exists_realOutput` — a node that is not captured follows an input
  of the network and leads to an output;
* `Sound.exists_enters`, `Sound.exists_exits` — a captured node follows a node that its special node
  feeds and leads to one that its special node reads;
* `Sound.within_of_path`, `Sound.within_of_path_from` — a path that ends or begins in a subgraph runs
  inside it.

Going on from a node as long as possible ends somewhere, since there are no cycles.  It can end only
where the network does or at an auxiliary port, and such a port belongs to the special node that
captures the node.
-/

namespace LayerNet.Graph

open Relation

variable {g : Graph} {a b s id : NodeId}

/-! ## Going forward -/

/-- The peer of a primary output is a primary input or an auxiliary input. -/
theorem WellFormed.peer_of_output (hg : g.WellFormed) {q : PortRef} (h : q ∈ g.peers (.output b)) :
    g.Flows b q.node ∨ g.Exits q.node b := by
  obtain ⟨u, slot⟩ := q
  have hb := hg.symm h
  cases slot with
  | input => exact Or.inl (flows_iff.2 h)
  | output =>
    have hin := hg.direction_of_peer h ((direction?_of_mem_ids (hg.peer_mem_ids hb)).2 rfl)
    rw [(direction?_of_mem_ids (hg.peer_mem_ids h)).2 rfl] at hin
    simp [Direction.opposite] at hin
  | aux i => exact Or.inr ⟨i, hb⟩

/-- Every node that is not captured leads to a real output. -/
theorem Sound.exists_realOutput (h : g.Sound) (hg : g.Valid) (hid : id ∈ g.ids)
    (hfree : ∀ s, id ∉ g.subgraph s) : ∃ b ∈ g.realOutputs, ReflTransGen g.Flows id b := by
  induction id using (hg.acyclic.wellFounded_swap hg.wellFormed).induction with
  | _ id ih =>
    cases hpeers : g.peers (.output id) with
    | nil =>
      obtain ⟨n, hn⟩ := exists_node? hid
      have hconn := (hasConnections_iff hn).2 (h.connected hid)
      refine ⟨id, mem_realOutputs.2 ⟨n, hn, hconn, hpeers, fun hm => ?_⟩, .refl⟩
      obtain ⟨s, hs⟩ := hg.wellFormed.mem_membership_iff.1 hm
      exact hfree s hs
    | cons q rest =>
      have hq : q ∈ g.peers (.output id) := by simp [hpeers]
      rcases hg.wellFormed.peer_of_output hq with hflow | hexit
      · have hnext : ∀ s, q.node ∉ g.subgraph s := fun s hs =>
          hfree s ((h.captures_iff_of_flows hg.wellFormed hflow).2 hs)
        obtain ⟨b, hb, hpath⟩ := ih q.node hflow (hg.wellFormed.flows_mem_ids hflow) hnext
        exact ⟨b, hb, hpath.head hflow⟩
      · exact absurd (hg.wellFormed.mem_subgraph_of_exits hexit) (hfree _)

/-- Every node of a subgraph leads to a node that its special node reads. -/
theorem Sound.exists_exits (h : g.Sound) (hg : g.Valid) (hid : id ∈ g.subgraph s) :
    ∃ b, g.Exits s b ∧ ReflTransGen g.Flows id b := by
  induction id using (hg.acyclic.wellFounded_swap hg.wellFormed).induction with
  | _ id ih =>
    obtain ⟨q, hq⟩ := List.exists_mem_of_ne_nil _ (h.used hid)
    rcases hg.wellFormed.peer_of_output hq with hflow | hexit
    · have hnext := (h.captures_iff_of_flows hg.wellFormed hflow).1 hid
      obtain ⟨b, hb, hpath⟩ := ih q.node hflow hnext
      exact ⟨b, hb, hpath.head hflow⟩
    · -- the auxiliary port belongs to the one node that captures `id`
      have hs := h.single hid (hg.wellFormed.mem_subgraph_of_exits hexit)
      exact ⟨id, hs ▸ hexit, .refl⟩

/-! ## Inside a subgraph -/

/-- A primary path among the nodes that a special node captures. -/
def Within (g : Graph) (s : NodeId) : NodeId → NodeId → Prop :=
  ReflTransGen fun x y => g.Flows x y ∧ x ∈ g.subgraph s ∧ y ∈ g.subgraph s

/-- A path that ends in a subgraph runs inside it. -/
theorem Sound.within_of_path (h : g.Sound) (hg : g.WellFormed) (hpath : ReflTransGen g.Flows a b)
    (hb : b ∈ g.subgraph s) : g.Within s a b := by
  induction hpath with
  | refl => exact .refl
  | tail _ hflow ih =>
    have hback := (h.captures_iff_of_flows hg hflow).2 hb
    exact (ih hback).tail ⟨hflow, hback, hb⟩

/-- A path that begins in a subgraph runs inside it. -/
theorem Sound.within_of_path_from (h : g.Sound) (hg : g.WellFormed)
    (hpath : ReflTransGen g.Flows a b) (ha : a ∈ g.subgraph s) : g.Within s a b :=
  h.within_of_path hg hpath (h.mem_subgraph_of_leads hg (leads_none_iff.2 hpath) ha)

/-! ## Every node lies on a path -/

/-- In an edited network whose report has no errors, every node that is not captured lies on a primary
path from a real input to a real output, and every node of a subgraph lies on a path inside it, from
a node that an auxiliary output of the special node feeds to one that an auxiliary input reads. -/
theorem Edited.on_path (h : g.Edited) (hreport : g.validate.hasErrors = false) :
    (∀ id ∈ g.ids, g.isCaptured id = false →
      ∃ a ∈ g.realInputs, ∃ b ∈ g.realOutputs,
        ReflTransGen g.Flows a id ∧ ReflTransGen g.Flows id b) ∧
      ∀ s, ∀ id ∈ g.subgraph s,
        ∃ a b, g.Enters s a ∧ g.Exits s b ∧ g.Within s a id ∧ g.Within s id b := by
  have hw := h.wellFormed
  have hs : g.Sound := hw.sound (hasErrors_validate.1 hreport)
  constructor
  · intro id hid hcaptured
    have hfree : ∀ s, id ∉ g.subgraph s := fun s hmem => by
      rw [hw.isCaptured_iff.2 ⟨s, hmem⟩] at hcaptured
      cases hcaptured
    obtain ⟨a, ha, hback⟩ := hs.exists_realInput h.valid hid hfree
    obtain ⟨b, hb, hforth⟩ := hs.exists_realOutput h.valid hid hfree
    exact ⟨a, ha, b, hb, hback, hforth⟩
  · intro s id hid
    obtain ⟨a, ha, hback⟩ := hs.exists_enters h.valid hid
    obtain ⟨b, hb, hforth⟩ := hs.exists_exits h.valid hid
    exact ⟨a, b, ha, hb, hs.within_of_path hw hback hid, hs.within_of_path_from hw hforth hid⟩

/-- In `housed`, the special node `1` lies between the input and the output, and the special node
that it houses lies inside its subgraph. -/
theorem on_path_housed :
    (∃ a ∈ housed.realInputs, ∃ b ∈ housed.realOutputs,
      ReflTransGen housed.Flows a 1 ∧ ReflTransGen housed.Flows 1 b) ∧
      ∃ a b, housed.Enters 1 a ∧ housed.Exits 1 b ∧ housed.Within 1 a 3 ∧ housed.Within 1 3 b := by
  obtain ⟨hfree, hinside⟩ := built_housed.edited.on_path (by decide +kernel)
  exact ⟨hfree 1 (by decide +kernel) (by decide +kernel), hinside 1 3 (by decide +kernel)⟩

end LayerNet.Graph
