import LayerNet.Proofs.Kinds
import LayerNet.Proofs.Soundness
import Mathlib

/-!
# Lawful edges

Two rules restrict the edges of a graph: the primary edges form no cycle, and no node belongs to the
subgraphs of two special nodes.  Both speak about the edges alone, and both only ask for edges to be
missing.  They are stated here for sets of edges, so that a part of a lawful set is lawful
(`EdgeSet.Lawful.mono`), whatever graph it belongs to.

* `WellFormed.canConnect_iff` — in a lawful graph, two ports may be joined exactly if an edge may
  join them and the edges together with the new one are lawful.
* `Edited.lawful` — the edges of every edited graph are lawful.
* `Edited.owned_once` — so the table of owners names at most one for each node.
-/

namespace LayerNet

open Relation

/-- Which ports share an edge.  An edge is seen from both of its ends. -/
abbrev EdgeSet := PortRef → PortRef → Prop

namespace EdgeSet

variable {E E' : EdgeSet} {s x y id : NodeId}

/-- A primary edge leads from `x` to `y`. -/
def Flows (E : EdgeSet) (x y : NodeId) : Prop := E (.output x) (.input y)

/-- A path of primary edges leads from `x` to `y` without passing through `s`. -/
def Leads (E : EdgeSet) (s x y : NodeId) : Prop :=
  x ≠ s ∧ ReflTransGen (fun u v => E.Flows u v ∧ v ≠ s) x y

/-- The special node `s` captures `id`: the node follows one that an auxiliary output of `s` feeds,
or leads to one that an auxiliary input of `s` reads. -/
def Captures (E : EdgeSet) (s id : NodeId) : Prop :=
  (∃ x i, E (.aux s i) (.input x) ∧ E.Leads s x id) ∨
    ∃ x i, E (.aux s i) (.output x) ∧ E.Leads s id x

/-- The primary edges form no cycle. -/
def Acyclic (E : EdgeSet) : Prop := ∀ x, ¬TransGen E.Flows x x

/-- No node belongs to the subgraphs of two special nodes. -/
def SingleOwner (E : EdgeSet) : Prop := ∀ id s t, E.Captures s id → E.Captures t id → s = t

/-- The edges keep the two rules. -/
structure Lawful (E : EdgeSet) : Prop where
  acyclic : E.Acyclic
  single : E.SingleOwner

/-! ## Fewer edges -/

theorem Leads.mono (h : E ≤ E') (hxy : E.Leads s x y) : E'.Leads s x y :=
  ⟨hxy.1, ReflTransGen.mono (fun _ _ huv => ⟨h _ _ huv.1, huv.2⟩) _ _ hxy.2⟩

theorem Captures.mono (h : E ≤ E') (hid : E.Captures s id) : E'.Captures s id := by
  rcases hid with ⟨x, i, hx, hpath⟩ | ⟨x, i, hx, hpath⟩
  · exact Or.inl ⟨x, i, h _ _ hx, hpath.mono h⟩
  · exact Or.inr ⟨x, i, h _ _ hx, hpath.mono h⟩

theorem Acyclic.mono (h : E ≤ E') (hE : E'.Acyclic) : E.Acyclic := fun x hx =>
  hE x (TransGen.mono (fun _ _ => h _ _) _ _ hx)

theorem SingleOwner.mono (h : E ≤ E') (hE : E'.SingleOwner) : E.SingleOwner :=
  fun id s t hs ht => hE id s t (hs.mono h) (ht.mono h)

/-- A part of a lawful set of edges is lawful. -/
theorem Lawful.mono (h : E ≤ E') (hE : E'.Lawful) : E.Lawful :=
  ⟨hE.acyclic.mono h, hE.single.mono h⟩

/-- Without edges nothing is against the rules. -/
theorem lawful_bot : Lawful ⊥ := by
  refine ⟨fun x hx => ?_, fun id s t hs _ => ?_⟩
  · obtain ⟨y, hxy, -⟩ := TransGen.head'_iff.1 hx
    exact hxy
  · rcases hs with ⟨x, i, hx, -⟩ | ⟨x, i, hx, -⟩
    · exact hx.elim
    · exact hx.elim

/-! ## One more edge -/

/-- The edge between two ports. -/
def between (a b : PortRef) : EdgeSet := fun p q => p = a ∧ q = b ∨ p = b ∧ q = a

theorem between_comm (a b : PortRef) : between a b = between b a := by
  funext p q
  exact propext Or.comm

theorem between_le_iff {a b : PortRef} : between a b ≤ E ↔ E a b ∧ E b a := by
  constructor
  · exact fun h => ⟨h _ _ (Or.inl ⟨rfl, rfl⟩), h _ _ (Or.inr ⟨rfl, rfl⟩)⟩
  · rintro ⟨hab, hba⟩ p q (⟨rfl, rfl⟩ | ⟨rfl, rfl⟩)
    · exact hab
    · exact hba

end EdgeSet

/-! ## What the subgraphs depend on -/

/-- A search depends only on where each id leads. -/
theorem Hops.mem_explore_congr {h h' : Hops} (hnext : ∀ id, h.next id = h'.next id)
    {queue seen : List NodeId} {id : NodeId} :
    id ∈ h.explore queue seen ↔ id ∈ h'.explore queue seen := by
  simp only [Hops.mem_explore, Hops.Leads, hnext]

namespace Graph

variable {g g' : Graph} {a b p q : PortRef} {s x y id : NodeId}

/-- The ids of the special nodes. -/
def specialIds (g : Graph) : List NodeId :=
  g.ids.filter fun id => (g.kind? id).any fun kind => kind.1.isSome

theorem map_id_filter_isSpecial (g : Graph) :
    (g.nodes.toList.filter Node.isSpecial).map Node.id = g.specialIds := by
  rw [specialIds, ids, Keyed.keys, List.filter_map]
  congr 1
  refine List.filter_congr fun n hn => ?_
  have hkind : g.kind? n.id = some (n.special, n.layerType) :=
    kind?_of_node? (Keyed.get?_eq_some_iff.2 ⟨hn, rfl⟩)
  simp [hkind, Node.isSpecial]

theorem specialIds_congr (hids : g'.ids = g.ids) (hkind : ∀ id, g'.kind? id = g.kind? id) :
    g'.specialIds = g.specialIds := by
  simp only [specialIds, hids, hkind]

theorem sorted_ids (g : Graph) : g.ids.Pairwise (· < ·) := by
  simpa [ids, Keyed.keys, List.pairwise_map] using g.nodes.sorted

theorem ids_eq_of_kind? (hkind : ∀ id, g'.kind? id = g.kind? id) : g'.ids = g.ids := by
  refine Keyed.eq_of_mem_iff g'.sorted_ids g.sorted_ids fun a => ?_
  rw [mem_ids_iff_kind?, mem_ids_iff_kind?, hkind]

end Graph

namespace Wiring

variable {w w' : Wiring}

theorem subgraphs_eq (w : Wiring) :
    w.subgraphs = w.graph.specialIds.map fun id => (id, w.subgraph id) := by
  rw [subgraphs, ← Graph.map_id_filter_isSpecial, List.map_map]
  rfl

theorem auxPorts_congr (hkind : ∀ id, w.graph.kind? id = w'.graph.kind? id) (id : NodeId)
    (d : Direction) : w.auxPorts id d = w'.auxPorts id d := by
  have h := hkind id
  rw [Graph.kind?, Graph.kind?] at h
  rw [auxPorts, auxPorts]
  cases hn : w.graph.node? id with
  | none =>
    rw [hn, Option.map_none, eq_comm, Option.map_eq_none_iff] at h
    rw [h]
  | some n =>
    rw [hn, Option.map_some, eq_comm, Option.map_eq_some_iff] at h
    obtain ⟨n', hn', e⟩ := h
    simp only [hn', (Prod.mk.inj e).1]

/-- The subgraphs depend on the kinds of the nodes and on the edges. -/
theorem subgraph_congr (hkind : ∀ id, w.graph.kind? id = w'.graph.kind? id)
    (hpeers : ∀ p, w.peers p = w'.peers p) (s : NodeId) : w.subgraph s = w'.subgraph s := by
  have haux : ∀ d, w.auxPeers s d = w'.auxPeers s d := fun d => by
    simp only [auxPeers, auxPorts_congr hkind, hpeers]
  have hforward : ∀ id, w.forward.next id = w'.forward.next id := fun id => by
    simp only [forward, hpeers]
  have hbackward : ∀ id, w.backward.next id = w'.backward.next id := fun id => by
    simp only [backward, hpeers]
  simp only [subgraph, haux, Graph.ids_eq_of_kind? hkind, Hops.mem_explore_congr hforward,
    Hops.mem_explore_congr hbackward]

theorem membership_congr (hkind : ∀ id, w.graph.kind? id = w'.graph.kind? id)
    (hsub : ∀ s, w.subgraph s = w'.subgraph s) : w.membership = w'.membership := by
  have hids := Graph.ids_eq_of_kind? hkind
  have hsubgraphs : w.subgraphs = w'.subgraphs := by
    simp only [subgraphs_eq, Graph.specialIds_congr hids hkind, hsub]
  simp only [membership, hids, hsubgraphs]

end Wiring

namespace Graph

variable {g g' : Graph} {a b p q : PortRef} {s x y id : NodeId}

/-! ## The edges of a graph -/

/-- The edges of a graph. -/
def edgeSet (g : Graph) : EdgeSet := fun p q => q ∈ g.peers p

theorem edgeSet_flows_iff : g.edgeSet.Flows x y ↔ g.Flows x y := flows_iff.symm

theorem edgeSet_flows_eq (g : Graph) : g.edgeSet.Flows = g.Flows := by
  funext x y
  exact propext edgeSet_flows_iff

theorem edgeSet_acyclic_iff : g.edgeSet.Acyclic ↔ g.Acyclic := by
  rw [EdgeSet.Acyclic, Graph.Acyclic, edgeSet_flows_eq]

theorem edgeSet_leads_iff : g.edgeSet.Leads s x y ↔ g.Leads (some s) x y := by
  simp only [EdgeSet.Leads, edgeSet_flows_iff, Graph.Leads, Hops.Leads, Option.toList_some,
    List.mem_singleton]
  rfl

/-- What a special node captures is told by the edges. -/
theorem WellFormed.captures_iff (hg : g.WellFormed) :
    g.edgeSet.Captures s id ↔ id ∈ g.subgraph s := by
  simp only [hg.mem_subgraph, EdgeSet.Captures, edgeSet_leads_iff, Enters, Exits, edgeSet,
    exists_and_right]

theorem owners_eq_filter (h : id ∈ g.ids) :
    g.owners id = g.specialIds.filter fun s => id ∈ g.subgraph s := by
  rw [owners_eq, if_pos h, Wiring.subgraphs_eq, List.filter_map, List.map_map]
  exact List.map_id _

theorem owners_eq_nil (h : g.specialIds = []) (id : NodeId) : g.owners id = [] := by
  rw [owners_eq, Wiring.subgraphs_eq]
  simp [wiring, h]

theorem nodup_owners (g : Graph) (id : NodeId) : (g.owners id).Nodup := by
  by_cases h : id ∈ g.ids
  · rw [owners_eq_filter h]
    exact g.nodup_ids.sublist (List.filter_sublist.trans List.filter_sublist)
  · rw [owners_eq, if_neg h]
    exact List.nodup_nil

theorem WellFormed.length_owners_le (hg : g.WellFormed) (h : g.edgeSet.SingleOwner) (id : NodeId) :
    (g.owners id).length ≤ 1 := by
  have hall : ∀ s ∈ g.owners id, ∀ t ∈ g.owners id, s = t := fun s hs t ht =>
    h id s t (hg.captures_iff.2 (hg.mem_owners.1 hs)) (hg.captures_iff.2 (hg.mem_owners.1 ht))
  have hnodup := g.nodup_owners id
  match hlist : g.owners id with
  | [] => exact Nat.zero_le 1
  | [s] => exact Nat.le_refl 1
  | s :: t :: rest =>
    rw [hlist] at hall hnodup
    have hst : s = t := hall s (by simp) t (by simp)
    exact absurd (hst ▸ List.mem_cons_self) (List.nodup_cons.1 hnodup).1

/-- No node has two owners if the table of owners names at most one for each node. -/
theorem WellFormed.singleOwner_iff (hg : g.WellFormed) :
    g.edgeSet.SingleOwner ↔ ∀ m ∈ g.membership, m.2.length ≤ 1 := by
  constructor
  · rintro h ⟨id, owners⟩ hm
    rw [mem_membership hm]
    exact hg.length_owners_le h id
  · intro h id s t hs ht
    exact hg.owner_unique h (hg.captures_iff.1 hs) (hg.captures_iff.1 ht)

/-! ## An edge on trial -/

/-- Joining two ports adds the edge between them. -/
theorem Joinable.edgeSet_link (h : g.Joinable a b) :
    (g.link a b).edgeSet = g.edgeSet ⊔ EdgeSet.between a b := by
  funext p q
  exact propext h.mem_peers_link

/-- The wiring with an edge on trial is the wiring after the connection. -/
theorem peers_trial (ha : (g.port? a).isSome) (hb : (g.port? b).isSome) (hne : a ≠ b)
    (p : PortRef) : Wiring.peers ⟨g, some (a, b)⟩ p = (g.link a b).peers p := by
  rw [peers_link_eq ha hb hne, Wiring.peers, attachTo, attachTo]
  by_cases hpa : p = a
  · subst hpa
    by_cases hb : b ∈ g.peers p <;> simp [hb, Ne.symm hne]
  · by_cases hpb : p = b
    · subst hpb
      by_cases ha : a ∈ g.peers p <;> simp [ha, hne, Ne.symm hne]
    · simp [hpa, hpb, Ne.symm hpa, Ne.symm hpb]

@[simp] theorem direction?_connect (g : Graph) (a b q : PortRef) :
    (g.connect a b).1.direction? q = g.direction? q := by
  rcases connect_cases g a b with h | ⟨h, -⟩
  · rw [h]
  · rw [h, direction?_link]

theorem kind?_link (g : Graph) (a b : PortRef) (id : NodeId) :
    (g.link a b).kind? id = g.kind? id := by
  rw [link, kind?_modifyPort, kind?_modifyPort]

theorem subgraph_trial (ha : (g.port? a).isSome) (hb : (g.port? b).isSome) (hne : a ≠ b)
    (s : NodeId) : Wiring.subgraph ⟨g, some (a, b)⟩ s = (g.link a b).subgraph s :=
  Wiring.subgraph_congr (fun id => (kind?_link g a b id).symm) (peers_trial ha hb hne) s

theorem membership_trial (ha : (g.port? a).isSome) (hb : (g.port? b).isSome) (hne : a ≠ b) :
    Wiring.membership ⟨g, some (a, b)⟩ = (g.link a b).membership :=
  Wiring.membership_congr (fun id => (kind?_link g a b id).symm) (subgraph_trial ha hb hne)

/-- In a graph in which no node has two owners, the rule for subgraphs lets a new edge pass exactly
if no node has two owners after it. -/
theorem WellFormed.subgraphConflict?_eq_none_iff (hg : g.WellFormed)
    (hsingle : g.edgeSet.SingleOwner) (h : g.Joinable a b) (hab : b ∉ g.peers a) :
    g.subgraphConflict? a b = none ↔ (g.edgeSet ⊔ EdgeSet.between a b).SingleOwner := by
  have hlink := hg.link h hab
  rw [← h.edgeSet_link, hlink.singleOwner_iff, subgraphConflict?]
  split
  · rw [membership_trial h.isSome_port?.1 h.isSome_port?.2 h.ne, List.findSome?_eq_none_iff]
    refine forall₂_congr fun m hm => ?_
    obtain ⟨id, owners⟩ := m
    have hbefore : ((g.membership.lookup id).getD []).length ≤ 1 := hg.length_owners_le hsingle id
    match owners with
    | [] => simp
    | [s] => simp
    | s :: t :: rest =>
      have hmany : 1 < (s :: t :: rest).length := by simp
      refine iff_of_false ?_ (Nat.not_le.2 hmany)
      simp only [if_pos (Nat.lt_of_le_of_lt hbefore hmany), reduceCtorEq, not_false_eq_true]
  · -- without special nodes there are no owners
    rename_i hplain
    have hnone : g.specialIds = [] := by
      rw [← map_id_filter_isSpecial, List.map_eq_nil_iff, List.filter_eq_nil_iff]
      simpa using hplain
    rw [← specialIds_congr (ids_eq_of_kind? (kind?_link g a b)) (kind?_link g a b)] at hnone
    refine iff_of_true rfl fun ⟨id, owners⟩ hm => ?_
    rw [mem_membership hm, owners_eq_nil hnone]
    exact Nat.zero_le 1

/-! ## When two ports may be joined -/

theorem eq_output_of_isPrimary (ha : g.direction? a = some .output) (h : a.slot.isPrimary = true) :
    a = .output a.node := by
  obtain ⟨node, slot⟩ := a
  cases slot with
  | input => exact absurd (direction?_input ha) (by simp)
  | output => rfl
  | aux i => simp [Slot.isPrimary] at h

theorem eq_input_of_isPrimary (ha : g.direction? a = some .input) (h : a.slot.isPrimary = true) :
    a = .input a.node := by
  obtain ⟨node, slot⟩ := a
  cases slot with
  | input => rfl
  | output => exact absurd (direction?_output ha) (by simp)
  | aux i => simp [Slot.isPrimary] at h

/-- A new edge from an output closes a cycle exactly if it is a primary edge whose end leads back to
its start. -/
theorem Acyclic.link_iff (hacyclic : g.Acyclic) (h : g.Joinable a b)
    (ha : g.direction? a = some .output) :
    (g.link a b).Acyclic ↔ ¬(a.slot.isPrimary = true ∧ b.slot.isPrimary = true ∧
      g.reaches b.node a.node = true) := by
  have hb : g.direction? b = some .input := by
    obtain ⟨d, hda, hdb⟩ := h.directed
    rw [ha, Option.some.injEq] at hda
    rw [hdb, ← hda, Direction.opposite]
  have hflows : ∀ {u v}, (g.link a b).Flows u v ↔ g.Flows u v ∨ a = .output u ∧ b = .input v := by
    intro u v
    rw [h.flows_link]
    refine or_congr_right (or_iff_left ?_)
    rintro ⟨rfl, -⟩
    exact absurd (direction?_output hb) (by simp)
  constructor
  · rintro hlink ⟨hpa, hpb, hreach⟩
    have hback : ReflTransGen (g.link a b).Flows b.node a.node :=
      ReflTransGen.mono (fun _ _ huv => hflows.2 (Or.inl huv)) _ _ (reaches_iff.1 hreach)
    have hedge : (g.link a b).Flows a.node b.node :=
      hflows.2 (Or.inr ⟨eq_output_of_isPrimary ha hpa, eq_input_of_isPrimary hb hpb⟩)
    exact hlink a.node (TransGen.head' hedge hback)
  · intro hback
    by_cases hprimary : a.slot.isPrimary = true ∧ b.slot.isPrimary = true
    · refine hacyclic.of_edge (a := a.node) (b := b.node) (fun hpath => ?_) fun u v huv => ?_
      · exact hback ⟨hprimary.1, hprimary.2, reaches_iff.2 hpath⟩
      · refine (hflows.1 huv).imp_right ?_
        rintro ⟨rfl, rfl⟩
        exact ⟨rfl, rfl⟩
    · refine hacyclic.mono fun u v huv => ?_
      rcases hflows.1 huv with huv | ⟨rfl, rfl⟩
      · exact huv
      · exact absurd ⟨rfl, rfl⟩ hprimary

theorem WellFormed.canJoin_iff (hg : g.WellFormed) (hlawful : g.edgeSet.Lawful)
    (h : g.Joinable a b) (hab : b ∉ g.peers a) (ha : g.direction? a = some .output) :
    g.canJoin a b = .ok () ↔ (g.edgeSet ⊔ EdgeSet.between a b).Lawful := by
  have hcycle := (edgeSet_acyclic_iff.1 hlawful.acyclic).link_iff h ha
  rw [canJoin_eq_ok_iff, hg.subgraphConflict?_eq_none_iff hlawful.single h hab, ← hcycle,
    ← edgeSet_acyclic_iff, h.edgeSet_link]
  exact ⟨fun ⟨_, hsingle, hacyclic⟩ => ⟨hacyclic, hsingle⟩,
    fun hl => ⟨h.primary, hl.single, hl.acyclic⟩⟩

theorem Joinable.symm (h : g.Joinable a b) : g.Joinable b a := by
  obtain ⟨d, ha, hb⟩ := h.directed
  exact ⟨⟨d.opposite, hb, by rw [Direction.opposite_opposite, ha]⟩, h.node_ne.symm, h.primary.symm⟩

theorem WellFormed.joinable_of_mem (hg : g.WellFormed) (h : b ∈ g.peers a) : g.Joinable a b :=
  ⟨hg.directed h, hg.node_ne h, hg.primary h⟩

theorem WellFormed.sup_between_of_mem (hg : g.WellFormed) (h : b ∈ g.peers a) :
    g.edgeSet ⊔ EdgeSet.between a b = g.edgeSet :=
  sup_eq_left.2 (EdgeSet.between_le_iff.2 ⟨h, hg.symm h⟩)

/-- In a lawful graph two ports may be joined if an edge may join them and the edges together with
the new one are lawful. -/
theorem WellFormed.canConnect_iff (hg : g.WellFormed) (hlawful : g.edgeSet.Lawful) :
    g.canConnect a b = .ok () ↔ g.Joinable a b ∧ (g.edgeSet ⊔ EdgeSet.between a b).Lawful := by
  by_cases hab : b ∈ g.peers a
  · -- the two ports share an edge already
    rw [hg.sup_between_of_mem hab]
    exact iff_of_true (hg.canConnect_of_mem hab) ⟨hg.joinable_of_mem hab, hlawful⟩
  · have hnew := isConnected_eq_false_iff.2 hab
    have hba : a ∉ g.peers b := fun h => hab (hg.symm h)
    constructor
    · intro h
      have hjoin := (admitted_of_canConnect h hnew).joinable
      refine ⟨hjoin, ?_⟩
      obtain ⟨da, db, ha, hb, -, hd, hrules⟩ := canConnect_eq_ok_iff.1 h
      rw [hnew] at hrules
      by_cases ho : da = .output
      · subst ho
        simp only [Bool.false_eq_true, if_true, false_or] at hrules
        exact (hg.canJoin_iff hlawful hjoin hab ha).1 hrules
      · simp only [Bool.false_eq_true, ho, if_false, false_or] at hrules
        have hdb : db = .output := by
          cases da <;> cases db <;> simp_all
        rw [EdgeSet.between_comm]
        exact (hg.canJoin_iff hlawful hjoin.symm hba (hdb ▸ hb)).1 hrules
    · rintro ⟨hjoin, hl⟩
      obtain ⟨d, ha, hb⟩ := hjoin.directed
      rw [canConnect_eq_ok_iff]
      refine ⟨d, d.opposite, ha, hb, hjoin.node_ne, by cases d <;> simp [Direction.opposite], ?_⟩
      refine Or.inr ?_
      cases d with
      | output =>
        rw [if_pos rfl]
        exact (hg.canJoin_iff hlawful hjoin hab ha).2 hl
      | input =>
        rw [if_neg (by simp)]
        rw [EdgeSet.between_comm] at hl
        exact (hg.canJoin_iff hlawful hjoin.symm hba hb).2 hl

/-- A connection that is made adds the edge between the two ports. -/
theorem WellFormed.edgeSet_connect (hg : g.WellFormed) (h : g.canConnect a b = .ok ()) :
    (g.connect a b).1.edgeSet = g.edgeSet ⊔ EdgeSet.between a b := by
  rw [connect_eq_of_ok h]
  by_cases hab : b ∈ g.peers a
  · rw [if_pos (isConnected_iff.2 hab), hg.sup_between_of_mem hab]
  · have hnew := isConnected_eq_false_iff.2 hab
    rw [hnew]
    exact (admitted_of_canConnect h hnew).joinable.edgeSet_link

theorem connect_of_error {e : ConnectError} (h : g.canConnect a b = .error e) :
    (g.connect a b).1 = g := by
  rw [connect_eq_of_error h]

/-! ## Edited graphs -/

theorem WellFormed.lawful_connect (hg : g.WellFormed) (hlawful : g.edgeSet.Lawful)
    (a b : PortRef) : (g.connect a b).1.edgeSet.Lawful := by
  cases h : g.canConnect a b with
  | error e => rwa [connect_of_error h]
  | ok _ =>
    rw [hg.edgeSet_connect h]
    exact ((hg.canConnect_iff hlawful).1 h).2

theorem lawful_of_subset (hlawful : g.edgeSet.Lawful) (h : ∀ p, g'.peers p ⊆ g.peers p) :
    g'.edgeSet.Lawful := hlawful.mono fun p _ hq => h p hq

theorem WellFormed.lawful_insertAs (hg : g.WellFormed) (hlawful : g.edgeSet.Lawful) (id : NodeId)
    (n : Node) : (g.insertAs id n).edgeSet.Lawful :=
  lawful_of_subset hlawful fun p => by
    rw [hg.peers_insertAs]
    exact (peersWithout_sublist g id p).subset

/-- The edges of every edited graph are lawful. -/
theorem Edited.lawful (h : g.Edited) : g.edgeSet.Lawful := by
  induction h with
  | empty catalog => exact EdgeSet.lawful_bot.mono fun p q hq => absurd hq List.not_mem_nil
  | createNode _ _ h ih => exact h.wellFormed.lawful_insertAs ih _ _
  | addNode _ h ih => exact h.wellFormed.lawful_insertAs ih _ _
  | insertAs id n h ih => exact h.wellFormed.lawful_insertAs ih id n
  | removeNode id h ih =>
    exact lawful_of_subset ih fun p => by
      rw [h.wellFormed.peers_removeNode]
      exact (peersWithout_sublist _ id p).subset
  | connect a b h ih => exact h.wellFormed.lawful_connect ih a b
  | disconnect a b _ ih => exact lawful_of_subset ih fun p => (peers_unlink_sublist _ a b p).subset
  | disconnectAll id h ih =>
    exact lawful_of_subset ih fun p => by
      rw [h.wellFormed.peers_disconnectAll]
      exact (peersWithout_sublist _ id p).subset
  | setHighlighted p highlighted _ ih => exact lawful_of_subset ih fun q => by simp
  | editNode id e _ ih => exact lawful_of_subset ih fun q => by simp
  | duplicate ids offset h ih =>
    exact (duplicate_induction (motive := fun g => g.WellFormed ∧ g.edgeSet.Lawful)
      (fun _ id n hg => ⟨hg.1.insertAs id n, hg.1.lawful_insertAs hg.2 id n⟩)
      (fun _ a b hg => ⟨hg.1.connect a b, hg.1.lawful_connect hg.2 a b⟩)
      ids offset ⟨h.wellFormed, ih⟩).2

/-- In every edited graph a node has at most one owner, and no two special nodes capture it. -/
theorem Edited.owned_once (h : g.Edited) (id : NodeId) :
    (g.owners id).length ≤ 1 ∧ ∀ s t, id ∈ g.subgraph s → id ∈ g.subgraph t → s = t :=
  ⟨h.wellFormed.length_owners_le h.lawful.single id, fun s t hs ht =>
    h.lawful.single id s t (h.wellFormed.captures_iff.2 hs) (h.wellFormed.captures_iff.2 ht)⟩

/-- A special node in the subgraph of another, with a node in each of the two subgraphs.  The edge
that would lead from the outer subgraph into the inner one is refused. -/
def nested : Graph :=
  let types := ["LayerStacked", "LayerStacked", "LayerDense", "LayerDense"]
  let nodes := types.foldl (fun g t => (g.createNode t default).1) ({} : Graph)
  let outer := ((nodes.connect (.aux 0 0) (.input 1)).1.connect (.output 1) (.input 2)).1
  ((outer.connect (.aux 1 0) (.input 3)).1.connect (.output 2) (.input 3)).1

theorem edited_nested : nested.Edited :=
  .connect _ _ (.connect _ _ (.connect _ _ (.connect _ _ (.createNode _ _ (.createNode _ _
    (.createNode _ _ (.createNode _ _ (.empty Catalog.builtin))))))))

theorem owners_nested : nested.owners 2 = [0] ∧ nested.owners 3 = [1] ∧
    ∀ s, 3 ∈ nested.subgraph s → s = 1 :=
  ⟨by decide +kernel, by decide +kernel, fun s hs =>
    (edited_nested.owned_once 3).2 s 1 hs (by decide +kernel)⟩

end Graph

end LayerNet
