import LayerNet.Graph.Validation
import LayerNet.Proofs.Capture
import LayerNet.Proofs.History

/-!
# Networks without findings

`findings_eq_nil_iff` says part by part what it means that nothing stands against a network, and
`Graph.Sound` collects what compilation needs of it.  All checks are local; what follows from them
for the network as a whole is proved here by going back along the edges:

* `Sound.captures_iff_of_flows` — an edge never leads into a subgraph or out of it;
* `Sound.exists_realInput` — every node that is not captured follows a real input;
* `Sound.mem_subgraph_iff` — every node of a subgraph follows a node fed by its special node, also
  when it was found from an exit.
-/

namespace LayerNet

/-- After an insertion there is an entry. -/
theorem Keyed.place_ne_nil {α κ : Type} [LT κ] [DecidableLT κ] (key : α → κ) (x : α) (l : List α) :
    place key x l ≠ [] := by
  cases l with
  | nil => simp [place]
  | cons y rest =>
    rw [place]
    split
    · simp
    · split <;> simp

namespace Graph

open Relation

variable {g : Graph} {a b s t id : NodeId} {n : Node}

/-! ## The ports of a node -/

theorem peers_input (h : g.node? id = some n) : g.peers (.input id) = n.input.peers := by
  simp [peers, port?, PortRef.input, h, Node.port?]

theorem peers_output (h : g.node? id = some n) : g.peers (.output id) = n.output.peers := by
  simp [peers, port?, PortRef.output, h, Node.port?]

theorem mem_nodes_iff : n ∈ g.nodes.toList ↔ g.node? n.id = some n := by
  rw [node?, Keyed.get?_eq_some_iff]
  simp

theorem id_of_node? (h : g.node? id = some n) : n.id = id := Keyed.key_of_get? h

theorem mem_nodes_of_node? (h : g.node? id = some n) : n ∈ g.nodes.toList := Keyed.mem_of_get? h

/-- A node has connections if one of its ports has a peer. -/
theorem hasConnections_iff (h : g.node? id = some n) :
    n.hasConnections = true ↔ ∃ slot, g.peers ⟨id, slot⟩ ≠ [] := by
  simp only [Node.hasConnections, List.any_eq_true, Port.isConnected, Bool.not_eq_true',
    List.isEmpty_eq_false_iff]
  constructor
  · rintro ⟨⟨slot, port⟩, hp, hne⟩
    refine ⟨slot, ?_⟩
    rwa [peers_eq, port?, h, Option.bind_some, Node.mem_ports.1 hp]
  · rintro ⟨slot, hne⟩
    rw [peers_eq, port?, h, Option.bind_some] at hne
    cases hp : n.port? slot with
    | none => simp [hp] at hne
    | some port =>
      rw [hp] at hne
      exact ⟨(slot, port), Node.mem_ports.2 hp, hne⟩

/-! ## What the parts of the report check -/

theorem disconnectedNodes_eq_nil_iff :
    g.disconnectedNodes = [] ↔ ∀ n ∈ g.nodes.toList, n.hasConnections = true := by
  simp [disconnectedNodes]

theorem endFindings_eq_nil_iff :
    g.endFindings = [] ↔ g.realInputs ≠ [] ∧ g.realOutputs ≠ [] ∧
      ∀ id ∈ g.realInputs, g.reachesAny id g.realOutputs = true := by
  simp [endFindings]

theorem unmergedNodes_eq_nil_iff :
    g.unmergedNodes = [] ↔ ∀ n ∈ g.nodes.toList, 1 < n.input.peers.length →
      g.catalog.isMerge n.layerType = true := by
  simp [unmergedNodes]

theorem sharedNodes_eq_nil_iff :
    g.sharedNodes = [] ↔ ∀ m ∈ g.membership, m.2.length ≤ 1 := by
  simp [sharedNodes]

theorem toList_ofList_eq_nil_iff {l : List NodeId} :
    (Keyed.ofList l : IdSet).toList = [] ↔ l = [] := by
  constructor
  · intro h
    rcases List.eq_nil_or_concat l with hl | ⟨front, last, rfl⟩
    · exact hl
    · rw [List.concat_eq_append, Keyed.ofList, List.foldl_append, List.foldl_cons] at h
      exact absurd h (Keyed.place_ne_nil _ last _)
  · rintro rfl
    rfl

theorem memberFindings_eq_nil_iff {special : Node} {members : List NodeId}
    (h : g.node? id = some n) :
    g.memberFindings special members id = [] ↔
      n.input.peers ≠ [] ∧ n.output.peers ≠ [] ∧
        ∀ q ∈ n.input.peers ++ n.output.peers, isInside special.id members q = true := by
  simp only [memberFindings, h, List.append_eq_nil_iff, List.map_eq_nil_iff,
    toList_ofList_eq_nil_iff, Port.isConnected, and_assoc]
  refine and_congr ?_ (and_congr ?_ ?_)
  · by_cases hin : n.input.peers = [] <;> simp [hin]
  · by_cases hout : n.output.peers = [] <;> simp [hout]
  · simp only [List.filter_eq_nil_iff, List.mem_append, Bool.not_eq_true', Bool.not_eq_false]

/-- Nothing stands against a network if none of the parts of the report finds anything. -/
theorem findings_eq_nil_iff :
    g.findings = [] ↔ g.disconnectedNodes = [] ∧ g.endFindings = [] ∧ g.unmergedNodes = [] ∧
      g.sharedNodes = [] ∧ g.subgraphFindings = [] := by
  simp [findings]

/-- Every finding is an error. -/
theorem hasErrors_validate : g.validate.hasErrors = false ↔ g.findings = [] := by
  simp only [validate, Report.hasErrors, List.any_map]
  cases g.findings with
  | nil => simp
  | cons f rest => simp [Finding.diagnostic, Diagnostic.error, Diagnostic.isError]

/-! ## Sound networks -/

/-- What a report without findings says about the edges. -/
structure Sound (g : Graph) : Prop where
  /-- Every node has an edge. -/
  connected : ∀ {id}, id ∈ g.ids → ∃ slot, g.peers ⟨id, slot⟩ ≠ []
  /-- There is an input. -/
  inputs : g.realInputs ≠ []
  /-- Nodes with several inputs merge them. -/
  merges : ∀ {id n}, g.node? id = some n → 1 < (g.peers (.input id)).length →
    g.catalog.isMerge n.layerType = true
  /-- No node belongs to two subgraphs. -/
  single : ∀ {id s t}, id ∈ g.subgraph s → id ∈ g.subgraph t → s = t
  /-- Every node of a subgraph has an input. -/
  fed : ∀ {id s}, id ∈ g.subgraph s → g.peers (.input id) ≠ []
  /-- Every node of a subgraph has an output. -/
  used : ∀ {id s}, id ∈ g.subgraph s → g.peers (.output id) ≠ []
  /-- What feeds a node of a subgraph is inside. -/
  fed_inside : ∀ {id s q}, id ∈ g.subgraph s → q ∈ g.peers (.input id) →
    isInside s (g.subgraph s) q = true
  /-- What a node of a subgraph feeds is inside. -/
  used_inside : ∀ {id s q}, id ∈ g.subgraph s → q ∈ g.peers (.output id) →
    isInside s (g.subgraph s) q = true

theorem WellFormed.sound (hg : g.WellFormed) (h : g.findings = []) : g.Sound := by
  obtain ⟨hconn, hends, hmerge, hshared, hsub⟩ := findings_eq_nil_iff.1 h
  have hmember : ∀ {id s}, id ∈ g.subgraph s → ∃ n, g.node? id = some n ∧
      n.input.peers ≠ [] ∧ n.output.peers ≠ [] ∧
        ∀ q ∈ n.input.peers ++ n.output.peers, isInside s (g.subgraph s) q = true := by
    intro id s hid
    obtain ⟨special, hs, hspecial⟩ := hg.isSpecial_of_mem_subgraph hid
    obtain ⟨n, hn⟩ := exists_node? (mem_ids_of_mem_subgraph hid)
    have hsid := id_of_node? hs
    rw [subgraphFindings, List.flatMap_eq_nil_iff] at hsub
    have hmembers := hsub special (List.mem_filter.2 ⟨mem_nodes_of_node? hs, hspecial⟩)
    rw [List.flatMap_eq_nil_iff, hsid] at hmembers
    have hfind := (memberFindings_eq_nil_iff hn).1 (hmembers id hid)
    rw [hsid] at hfind
    exact ⟨n, hn, hfind⟩
  constructor
  · intro id hid
    obtain ⟨n, hn⟩ := exists_node? hid
    exact (hasConnections_iff hn).1 (disconnectedNodes_eq_nil_iff.1 hconn n (mem_nodes_of_node? hn))
  · exact (endFindings_eq_nil_iff.1 hends).1
  · intro id n hn hlen
    rw [peers_input hn] at hlen
    exact unmergedNodes_eq_nil_iff.1 hmerge n (mem_nodes_of_node? hn) hlen
  · exact fun hs ht => hg.owner_unique (sharedNodes_eq_nil_iff.1 hshared) hs ht
  · intro id s hid
    obtain ⟨n, hn, hin, -⟩ := hmember hid
    rwa [peers_input hn]
  · intro id s hid
    obtain ⟨n, hn, -, hout, -⟩ := hmember hid
    rwa [peers_output hn]
  · intro id s q hid hq
    obtain ⟨n, hn, -, -, hall⟩ := hmember hid
    rw [peers_input hn] at hq
    exact hall q (List.mem_append_left _ hq)
  · intro id s q hid hq
    obtain ⟨n, hn, -, -, hall⟩ := hmember hid
    rw [peers_output hn] at hq
    exact hall q (List.mem_append_right _ hq)

/-! ## Subgraphs are closed -/

theorem mem_of_isInside {members : List NodeId} {q : PortRef} (h : isInside s members q = true)
    (hq : q.slot.isAux = false) : q.node ∈ members := by
  unfold isInside at h
  split at h
  · exact absurd h (by simp [hq])
  · simpa using h

/-- An edge never leads into a subgraph or out of it. -/
theorem Sound.captures_iff_of_flows (h : g.Sound) (hg : g.WellFormed) (hab : g.Flows a b) :
    a ∈ g.subgraph s ↔ b ∈ g.subgraph s := by
  have hpeer := flows_iff.1 hab
  exact ⟨fun ha => mem_of_isInside (h.used_inside ha hpeer) rfl,
    fun hb => mem_of_isInside (h.fed_inside hb (hg.symm hpeer)) rfl⟩

/-- A path from a node of a subgraph stays in it. -/
theorem Sound.mem_subgraph_of_leads (h : g.Sound) (hg : g.WellFormed) {stop : Option NodeId}
    (hab : g.Leads stop a b) (ha : a ∈ g.subgraph s) : b ∈ g.subgraph s :=
  hab.induction ha fun _ _ _ hx hxy _ => (h.captures_iff_of_flows hg hxy).1 hx

/-- A path from a node that is not captured leads to nodes that are not captured. -/
theorem Sound.not_captured_of_leads (h : g.Sound) (hg : g.WellFormed) {stop : Option NodeId}
    (hab : g.Leads stop a b) (ha : ∀ s, a ∉ g.subgraph s) (s : NodeId) : b ∉ g.subgraph s :=
  hab.induction (motive := fun b => ∀ s, b ∉ g.subgraph s) ha
    (fun _ _ _ hx hxy _ s hy => hx s ((h.captures_iff_of_flows hg hxy).2 hy)) s

/-- What is fed by an auxiliary output is captured. -/
theorem WellFormed.mem_subgraph_of_enters (hg : g.WellFormed) (h : g.Enters s a) :
    a ∈ g.subgraph s := by
  obtain ⟨i, hi⟩ := h
  refine hg.mem_subgraph.2 (Or.inl ⟨a, ⟨i, hi⟩, .refl fun e => ?_⟩)
  exact hg.node_ne hi (Option.some.inj e).symm

/-- What an auxiliary input reads is captured. -/
theorem WellFormed.mem_subgraph_of_exits (hg : g.WellFormed) (h : g.Exits s a) :
    a ∈ g.subgraph s := by
  obtain ⟨i, hi⟩ := h
  refine hg.mem_subgraph.2 (Or.inr ⟨a, ⟨i, hi⟩, .refl fun e => ?_⟩)
  exact hg.node_ne hi (Option.some.inj e).symm

/-- The peer of a primary input is a primary output or an auxiliary output. -/
theorem WellFormed.peer_of_input (hg : g.WellFormed) {q : PortRef} (h : q ∈ g.peers (.input b)) :
    g.Flows q.node b ∨ g.Enters q.node b := by
  obtain ⟨u, slot⟩ := q
  have hb := hg.symm h
  cases slot with
  | input =>
    have hout := hg.direction_of_peer h ((direction?_of_mem_ids (hg.peer_mem_ids hb)).1 rfl)
    rw [(direction?_of_mem_ids (hg.peer_mem_ids h)).1 rfl] at hout
    simp [Direction.opposite] at hout
  | output => exact Or.inl (flows_iff.2 hb)
  | aux i => exact Or.inr ⟨i, hb⟩

theorem mem_realInputs :
    id ∈ g.realInputs ↔ ∃ n, g.node? id = some n ∧ n.hasConnections = true ∧
      g.peers (.input id) = [] ∧ id ∉ g.membership.map Prod.fst := by
  simp only [realInputs, List.mem_map, List.mem_filter, Bool.and_eq_true, Bool.not_eq_true',
    decide_eq_true_eq, mem_nodes_iff]
  constructor
  · rintro ⟨n, ⟨hn, ⟨hconn, hin⟩, hfree⟩, rfl⟩
    refine ⟨n, hn, hconn, ?_, hfree⟩
    rw [peers_input hn]
    simpa [Port.isConnected] using hin
  · rintro ⟨n, hn, hconn, hin, hfree⟩
    have hid := id_of_node? hn
    subst hid
    rw [peers_input hn] at hin
    exact ⟨n, ⟨hn, ⟨hconn, by simp [Port.isConnected, hin]⟩, hfree⟩, rfl⟩

theorem mem_realOutputs :
    id ∈ g.realOutputs ↔ ∃ n, g.node? id = some n ∧ n.hasConnections = true ∧
      g.peers (.output id) = [] ∧ id ∉ g.membership.map Prod.fst := by
  simp only [realOutputs, List.mem_map, List.mem_filter, Bool.and_eq_true, Bool.not_eq_true',
    decide_eq_true_eq, mem_nodes_iff]
  constructor
  · rintro ⟨n, ⟨hn, ⟨hconn, hout⟩, hfree⟩, rfl⟩
    refine ⟨n, hn, hconn, ?_, hfree⟩
    rw [peers_output hn]
    simpa [Port.isConnected] using hout
  · rintro ⟨n, hn, hconn, hout, hfree⟩
    have hid := id_of_node? hn
    subst hid
    rw [peers_output hn] at hout
    exact ⟨n, ⟨hn, ⟨hconn, by simp [Port.isConnected, hout]⟩, hfree⟩, rfl⟩

theorem nodup_ids (g : Graph) : g.ids.Nodup := by
  rw [ids, Keyed.keys, List.Nodup, List.pairwise_map]
  exact g.nodes.sorted.imp fun hlt => Nat.ne_of_lt hlt

theorem nodup_realInputs (g : Graph) : g.realInputs.Nodup :=
  g.nodup_ids.sublist (List.filter_sublist.map _)

/-- A real input is fed by nothing and not captured. -/
theorem WellFormed.of_mem_realInputs (hg : g.WellFormed) (h : id ∈ g.realInputs) :
    id ∈ g.ids ∧ g.peers (.input id) = [] ∧ ∀ s, id ∉ g.subgraph s := by
  obtain ⟨n, hn, -, hin, hfree⟩ := mem_realInputs.1 h
  exact ⟨mem_ids_of_node? hn, hin, fun s hs => hfree (hg.mem_membership_iff.2 ⟨s, hs⟩)⟩

/-- Every node that is not captured follows a real input. -/
theorem Sound.exists_realInput (h : g.Sound) (hg : g.Valid) (hid : id ∈ g.ids)
    (hfree : ∀ s, id ∉ g.subgraph s) : ∃ a ∈ g.realInputs, ReflTransGen g.Flows a id := by
  induction id using hg.acyclic.wellFounded.induction with
  | _ id ih =>
    cases hpeers : g.peers (.input id) with
    | nil =>
      obtain ⟨n, hn⟩ := exists_node? hid
      refine ⟨id, mem_realInputs.2 ⟨n, hn, (hasConnections_iff hn).2 (h.connected hid), hpeers, ?_⟩,
        .refl⟩
      exact fun hm => (hg.wellFormed.mem_membership_iff.1 hm).elim hfree
    | cons q rest =>
      have hq : q ∈ g.peers (.input id) := by simp [hpeers]
      rcases hg.wellFormed.peer_of_input hq with hflow | henter
      · have hback := fun s hs => hfree s ((h.captures_iff_of_flows hg.wellFormed hflow).1 hs)
        obtain ⟨a, ha, hpath⟩ := ih q.node hflow (Flows.mem_ids hflow) hback
        exact ⟨a, ha, hpath.tail hflow⟩
      · exact absurd (hg.wellFormed.mem_subgraph_of_enters henter) (hfree _)

/-- Every node of a subgraph follows a node that its special node feeds. -/
theorem Sound.exists_enters (h : g.Sound) (hg : g.Valid) (hid : id ∈ g.subgraph s) :
    ∃ a, g.Enters s a ∧ ReflTransGen g.Flows a id := by
  induction id using hg.acyclic.wellFounded.induction with
  | _ id ih =>
    obtain ⟨q, hq⟩ := List.exists_mem_of_ne_nil _ (h.fed hid)
    rcases hg.wellFormed.peer_of_input hq with hflow | henter
    · have hback := (h.captures_iff_of_flows hg.wellFormed hflow).2 hid
      obtain ⟨a, ha, hpath⟩ := ih q.node hflow hback
      exact ⟨a, ha, hpath.tail hflow⟩
    · have hs := h.single hid (hg.wellFormed.mem_subgraph_of_enters henter)
      exact ⟨id, hs ▸ henter, .refl⟩

/-- The nodes of a subgraph are those that follow a node fed by the special node. -/
theorem Sound.mem_subgraph_iff (h : g.Sound) (hg : g.Valid) :
    id ∈ g.subgraph s ↔ ∃ a, g.Enters s a ∧ g.Leads none a id := by
  constructor
  · intro hid
    obtain ⟨a, ha, hpath⟩ := h.exists_enters hg hid
    exact ⟨a, ha, leads_none_iff.2 hpath⟩
  · rintro ⟨a, ha, hpath⟩
    exact h.mem_subgraph_of_leads hg.wellFormed hpath (hg.wellFormed.mem_subgraph_of_enters ha)

end Graph

end LayerNet
