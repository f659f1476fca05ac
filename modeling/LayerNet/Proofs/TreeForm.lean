import LayerNet.Proofs.Acceptance
import LayerNet.Proofs.Drawing

/-!
# Networks in tree form compile

A graph in which a term is drawn completely has the edges of the term and no others, so the inputs
of a node can be counted (`Drawn.length_predecessors`), nothing stands against the network
(`Drawn.findings_eq_nil`), and what follows each place is laid out as the term says
(`Drawn.laid`).  `Drawing.connects_and_compiles` is the result: no connection is refused on the way,
and the network compiles under any configuration.
-/

namespace LayerNet

open Relation

namespace Term

variable {t : Term} {g : Graph} {ids : List NodeId} {es : List (NodeId × NodeId)} {a x id : NodeId}
  {k : Nat}

/-! ## Complete drawings -/

/-- A graph in which all of a term is drawn. -/
theorem Drawn.complete (h : t.Drawn ids es g) (hids : ∀ id ∈ t.ids, id ∈ ids)
    (hes : ∀ e ∈ t.edges none, e ∈ es) : t.Drawn t.ids (t.edges none) g where
  valid := h.valid
  nodes id := (h.nodes id).trans ⟨h.within id, hids id⟩
  peers p q := (h.peers p q).trans ⟨fun ⟨e, he, hpq⟩ => ⟨e, h.edges e he, hpq⟩,
    fun ⟨e, he, hpq⟩ => ⟨e, hes e he, hpq⟩⟩
  kinds := h.kinds
  within _ hid := hid
  edges _ he := he

section Complete

variable (h : t.Drawn t.ids (t.edges none) g)

include h

theorem Drawn.mem_predecessors : a ∈ g.predecessors x ↔ (a, x) ∈ t.edges none := by
  rw [h.valid.wellFormed.mem_predecessors, h.flows_iff]

/-- What feeds a node is its predecessors and nothing else. -/
theorem Drawn.peers_input_perm (x : NodeId) :
    (g.peers (.input x)).Perm ((g.predecessors x).map .output) := by
  refine (List.perm_ext_iff_of_nodup (h.valid.wellFormed.nodup _) ?_).2 fun q => ?_
  · exact (g.nodup_predecessors x).map fun a b e => congrArg PortRef.node e
  · simp only [h.peers, List.mem_map, h.mem_predecessors]
    constructor
    · rintro ⟨e, he, ⟨hx, -⟩ | ⟨hx, rfl⟩⟩
      · cases hx
      · cases hx
        exact ⟨e.1, he, rfl⟩
    · rintro ⟨a, ha, rfl⟩
      exact ⟨(a, x), ha, Or.inr ⟨rfl, rfl⟩⟩

theorem Drawn.arrivals_eq (x : NodeId) : g.arrivals x = (g.predecessors x).length := by
  have hplain : (g.peers (.input x)).any (fun p => p.slot.isAux) = false := by
    refine List.any_eq_false.2 ?_
    intro q hq
    obtain ⟨a, -, rfl⟩ := List.mem_map.1 ((h.peers_input_perm x).mem_iff.1 hq)
    exact Bool.false_ne_true
  rw [Graph.arrivals, hplain, if_neg Bool.false_ne_true, Nat.add_zero]

/-- The inputs of a node together with its place among the entries are as many as the edges that it
waits for. -/
theorem Drawn.length_predecessors (hn : t.Network) (hx : (x, k) ∈ t.arities) :
    (g.predecessors x).length + (t.entries none).count x = k := by
  have hedges : (t.edges none).Nodup := nodup_edges hn.shaped hn.nodup
  have hpred : (g.predecessors x).Perm (((t.edges none).filter fun e => e.2 = x).map Prod.fst) := by
    refine (List.perm_ext_iff_of_nodup (g.nodup_predecessors x) ?_).2 fun a => ?_
    · refine (hedges.filter _).map_on ?_
      intro e he e' he' heq
      simp only [List.mem_filter, decide_eq_true_eq] at he he'
      exact Prod.ext heq (he.2.trans he'.2.symm)
    · rw [h.mem_predecessors, List.mem_map]
      simp only [List.mem_filter, decide_eq_true_eq]
      constructor
      · exact fun ha => ⟨(a, x), ⟨ha, rfl⟩, rfl⟩
      · rintro ⟨⟨a, _⟩, ⟨ha, rfl⟩, rfl⟩
        exact ha
  have hcount : ((t.edges none).map Prod.snd).count x = (g.predecessors x).length := by
    rw [hpred.length_eq, List.length_map, ← List.countP_eq_length_filter, List.count,
      List.countP_map]
    rfl
  have htargets : ((t.edges none).map Prod.snd ++ t.entries none).Perm (t.slots ++ []) :=
    edges_targets_perm hn.shaped fun _ => rfl
  have hperm := htargets.count_eq x
  rw [List.count_append, List.count_append, count_slots hn.nodup hx, hcount] at hperm
  simpa using hperm

theorem Drawn.single (hn : t.Network) (hx : (x, k) ∈ t.arities) (hk : k ≤ 1) : g.Single x := by
  have hid : x ∈ t.ids := List.mem_map_of_mem hx
  obtain ⟨n, hnode⟩ := Graph.exists_node? ((h.nodes x).2 hid)
  have hlen := h.length_predecessors hn hx
  exact ⟨n, hnode, h.not_special hnode, by omega⟩

/-- All inputs of a merging node come from the branches that it closes. -/
theorem Drawn.merging (hn : t.Network) (hx : (x, k) ∈ t.arities) (hk : 1 < k) :
    g.Merging x ∧ g.arrivals x = k := by
  have hid : x ∈ t.ids := List.mem_map_of_mem hx
  obtain ⟨n, hnode⟩ := Graph.exists_node? ((h.nodes x).2 hid)
  refine ⟨⟨n, hnode, (h.kinds x _ (Graph.kind?_of_node? hnode)).2 k hx hk⟩, ?_⟩
  have hinner : x ∉ t.entries none := by
    intro hentry
    have hone := count_slots hn.nodup (hn.fed.arity_of_mem_entries hentry)
    rw [count_slots hn.nodup hx] at hone
    omega
  have hlen := h.length_predecessors hn hx
  rw [List.count_eq_zero.2 hinner] at hlen
  rw [h.arrivals_eq, ← hlen, Nat.add_zero]

/-- The graph is laid out as the term says. -/
theorem Drawn.laid (hn : t.Network) : Laid g [] none t :=
  hn.shaped.laid (fun _ => rfl) (fun _ _ _ => h.flows_iff) hn.nodup fun e he =>
    ⟨fun hone => h.single hn (k := e.2) he hone.le, fun hmany => h.merging hn he hmany⟩

/-! ## Nothing stands against the network -/

theorem Drawn.not_captured (s : NodeId) : id ∉ g.subgraph s := by
  intro hid
  obtain ⟨n, hnode, hspecial⟩ := h.valid.wellFormed.isSpecial_of_mem_subgraph hid
  rw [h.not_special hnode] at hspecial
  cases hspecial

theorem Drawn.not_mem_membership : id ∉ g.membership.map Prod.fst := fun hid =>
  (h.valid.wellFormed.mem_membership_iff.1 hid).elim fun s hs => h.not_captured s hs

theorem Drawn.hasConnections (hn : t.Network) {n : Node} (hnode : g.node? id = some n) :
    n.hasConnections = true := by
  have hid : id ∈ t.ids := (h.nodes id).1 (Graph.mem_ids_of_node? hnode)
  obtain ⟨e, he, hend⟩ := hn.joined id hid
  rw [Graph.hasConnections_iff hnode]
  rcases hend with rfl | rfl
  · exact ⟨.output, List.ne_nil_of_mem ((h.peers (.output e.1) (.input e.2)).2
      ⟨e, he, Or.inl ⟨rfl, rfl⟩⟩)⟩
  · exact ⟨.input, List.ne_nil_of_mem ((h.peers (.input e.2) (.output e.1)).2
      ⟨e, he, Or.inr ⟨rfl, rfl⟩⟩)⟩

/-- The inputs of the network are the entries of the term. -/
theorem Drawn.realInputs_perm (hn : t.Network) : g.realInputs.Perm (t.entries none) := by
  have hentries : (t.entries none).Nodup := nodup_entries hn.shaped hn.nodup
  refine (List.perm_ext_iff_of_nodup g.nodup_realInputs hentries).2 ?_
  intro x
  rw [Graph.mem_realInputs]
  constructor
  · rintro ⟨n, hnode, -, hin, -⟩
    have hid : x ∈ t.ids := (h.nodes x).1 (Graph.mem_ids_of_node? hnode)
    obtain ⟨e, he, hpath⟩ := (h.laid hn).exists_entry hid
    rcases ReflTransGen.cases_tail hpath with rfl | ⟨a, -, hax⟩
    · exact he
    · have hmem := h.valid.wellFormed.mem_predecessors.2 hax
      have hperm := h.peers_input_perm x
      rw [hin] at hperm
      rw [List.map_eq_nil_iff.1 hperm.symm.eq_nil] at hmem
      exact absurd hmem List.not_mem_nil
  · intro hx
    have hlen := h.length_predecessors hn (hn.fed.arity_of_mem_entries hx)
    have hcount := List.count_pos_iff.2 hx
    have hnone : g.predecessors x = [] := List.eq_nil_of_length_eq_zero (by omega)
    have hid := mem_ids_of_mem_entries_of_ne hn.shaped hn.ne_done hx
    obtain ⟨n, hnode⟩ := Graph.exists_node? ((h.nodes x).2 hid)
    refine ⟨n, hnode, h.hasConnections hn hnode, ?_, h.not_mem_membership⟩
    have hperm := h.peers_input_perm x
    rw [hnone, List.map_nil] at hperm
    exact hperm.eq_nil

/-- Every node leads to an output of the network. -/
theorem Drawn.exists_realOutput (hn : t.Network) (hx : x ∈ t.ids) :
    ∃ y ∈ g.realOutputs, ReflTransGen g.Flows x y := by
  induction x using (h.valid.acyclic.wellFounded_swap h.valid.wellFormed).induction with
  | _ x ih =>
    obtain ⟨n, hnode⟩ := Graph.exists_node? ((h.nodes x).2 hx)
    cases hpeers : g.peers (.output x) with
    | nil =>
      exact ⟨x, Graph.mem_realOutputs.2 ⟨n, hnode, h.hasConnections hn hnode, hpeers,
        h.not_mem_membership⟩, .refl⟩
    | cons q rest =>
      have hq : q ∈ g.peers (.output x) := by simp [hpeers]
      obtain ⟨e, he, ⟨hx', -⟩ | ⟨hx', -⟩⟩ := (h.peers _ _).1 hq
      · cases hx'
        have hflow := h.flows_iff.2 he
        have hend := (mem_ids_of_mem_edges hn.shaped he).2.resolve_right (by simp)
        obtain ⟨y, hy, hpath⟩ := ih e.2 hflow hend
        exact ⟨y, hy, .head hflow hpath⟩
      · cases hx'

theorem Drawn.realInputs_ne_nil (hn : t.Network) : g.realInputs ≠ [] := by
  obtain ⟨x, hx⟩ : ∃ x, x ∈ t.entries none := exists_mem_entries hn.shaped (Or.inl hn.ne_done)
  exact List.ne_nil_of_mem ((h.realInputs_perm hn).mem_iff.2 hx)

/-- Nothing stands against the network. -/
theorem Drawn.findings_eq_nil (hn : t.Network) : g.findings = [] := by
  rw [Graph.findings_eq_nil_iff]
  refine ⟨?_, ?_, ?_, ?_, ?_⟩
  · rw [Graph.disconnectedNodes_eq_nil_iff]
    exact fun n hmem => h.hasConnections hn (Graph.mem_nodes_iff.1 hmem)
  · have hreach : ∀ x ∈ g.realInputs, ∃ y ∈ g.realOutputs, ReflTransGen g.Flows x y := fun x hx =>
      h.exists_realOutput hn ((h.nodes x).1 (h.valid.wellFormed.of_mem_realInputs hx).1)
    obtain ⟨x, hx⟩ := List.exists_mem_of_ne_nil _ (h.realInputs_ne_nil hn)
    obtain ⟨y, hy, -⟩ := hreach x hx
    exact Graph.endFindings_eq_nil_iff.2 ⟨h.realInputs_ne_nil hn, List.ne_nil_of_mem hy,
      fun x hx => Graph.reachesAny_iff.2 (hreach x hx)⟩
  · rw [Graph.unmergedNodes_eq_nil_iff]
    intro n hmem hlen
    have hnode := Graph.mem_nodes_iff.1 hmem
    rw [← Graph.peers_input hnode, (h.peers_input_perm n.id).length_eq, List.length_map] at hlen
    have hid : n.id ∈ t.ids := (h.nodes n.id).1 (Graph.mem_ids_of_node? hnode)
    obtain ⟨⟨_, k⟩, hk, rfl⟩ := List.mem_map.1 hid
    have hcount := h.length_predecessors hn hk
    exact (h.kinds n.id _ (Graph.kind?_of_node? hnode)).2 k hk (by omega)
  · rw [Graph.sharedNodes_eq_nil_iff]
    exact fun m hm => absurd (List.mem_map_of_mem hm) h.not_mem_membership
  · rw [Graph.subgraphFindings, List.flatMap_eq_nil_iff]
    intro n hmem
    rw [List.mem_filter, h.not_special (Graph.mem_nodes_iff.1 hmem.1)] at hmem
    cases hmem.2

theorem Drawn.length_ids_le (hn : t.Network) : t.ids.length ≤ g.size := by
  have hsub := (hn.nodup.subperm fun x hx => (h.nodes x).2 hx).length_le
  rwa [Graph.ids, Keyed.keys, List.length_map] at hsub

end Complete

/-! ## Networks in tree form -/

/-- The nodes and the edges of a network in tree form can be put in in any order: every connection
is made, and the network compiles. -/
theorem Drawing.connects_and_compiles (hn : t.Network) (h : t.Drawing ids es g)
    (hids : ∀ id ∈ t.ids, id ∈ ids) (hes : ∀ e ∈ t.edges none, e ∈ es) (config : CompilerConfig) :
    (∀ a b, PortRef.input b ∈ g.peers (.output a) ↔ (a, b) ∈ t.edges none) ∧
      ∃ forest, g.compile config = .ok forest := by
  have hdrawn := (h.drawn hn.shaped hn.nodup).complete hids hes
  refine ⟨fun a b => by rw [← Graph.flows_iff, hdrawn.flows_iff], ?_⟩
  have hfresh : Fresh g.size none [] t :=
    ⟨by simpa [Distinct] using hn.nodup, hdrawn.length_ids_le hn, fun x _ => List.not_mem_nil⟩
  obtain ⟨forest, u, hgives, -⟩ := (handles_levels config hdrawn.valid.acyclic g.size).heads config
    hdrawn.valid.acyclic (hdrawn.laid hn) hfresh hn.ne_done (hdrawn.realInputs_perm hn)
  exact ⟨forest, Graph.compile_eq_ok_iff.2 ⟨Graph.hasErrors_validate.2 (hdrawn.findings_eq_nil hn),
    hdrawn.realInputs_ne_nil hn, u, hgives⟩⟩

/-- A node with a branch to a merge and an edge past the branch, and two ends behind the merge. -/
def forked : Term :=
  .node 0 (.group 3 [.node 1 .done, .done] (.fan [.node 4 .done, .node 5 .done]))

theorem network_forked : forked.Network where
  shaped := by
    refine .node (.group (by decide) (by simp) ?_ (.fan (by decide) (by decide) ?_))
    · simp only [List.forall_mem_cons]
      exact ⟨.node .done, .done, by simp⟩
    · simp only [List.forall_mem_cons]
      exact ⟨.node .done, .node .done, by simp⟩
  ne_done := by simp [forked]
  fed := .node
  nodup := by decide
  joined := by decide

/-- Put in from the last node to the first one, with the edges in no special order. -/
theorem forked_connects_and_compiles : ∃ ids es g, forked.Drawing ids es g ∧
    (∀ id ∈ forked.ids, id ∈ ids) ∧ (∀ e ∈ forked.edges none, e ∈ es) ∧
    (∀ a b, PortRef.input b ∈ g.peers (.output a) ↔ (a, b) ∈ forked.edges none) ∧
    ∃ forest, g.compile {} = .ok forest := by
  have hnew := Drawing.blank (t := forked) Catalog.builtin
  have h5 := hnew.insert 5 (.new 5 "LayerDense" none default) (by decide) (by decide) rfl
    (by decide)
  have h4 := h5.insert 4 (.new 4 "LayerDense" none default) (by decide) (by decide) rfl (by decide)
  have h3 := h4.insert 3 (.new 3 "LayerParallelSum" none default) (by decide) (by decide) rfl
    (by decide +kernel)
  have h1 := h3.insert 1 (.new 1 "LayerDense" none default) (by decide) (by decide) rfl (by decide)
  have h0 := h1.insert 0 (.new 0 "LayerDense" none default) (by decide) (by decide) rfl (by decide)
  have h35 := h0.connect 3 5 _ _ (by decide) (by decide) (by decide) (Or.inr ⟨rfl, rfl⟩)
  have h03 := h35.connect 0 3 _ _ (by decide) (by decide) (by decide) (Or.inl ⟨rfl, rfl⟩)
  have h34 := h03.connect 3 4 _ _ (by decide) (by decide) (by decide) (Or.inl ⟨rfl, rfl⟩)
  have h13 := h34.connect 1 3 _ _ (by decide) (by decide) (by decide) (Or.inr ⟨rfl, rfl⟩)
  have h01 := h13.connect 0 1 _ _ (by decide) (by decide) (by decide) (Or.inl ⟨rfl, rfl⟩)
  have hids : ∀ id ∈ forked.ids, id ∈ [0, 1, 3, 4, 5] := by decide
  have hes : ∀ e ∈ forked.edges none, e ∈ [(0, 1), (1, 3), (3, 4), (0, 3), (3, 5)] := by decide
  exact ⟨_, _, _, h01, hids, hes,
    Drawing.connects_and_compiles network_forked h01 hids hes {}⟩

end Term

end LayerNet
