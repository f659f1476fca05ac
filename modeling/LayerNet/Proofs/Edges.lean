import LayerNet.Graph.Duplicate
import LayerNet.Proofs.Flow

/-!
# Edges are kept on both sides

Each edge is stored twice, once at either end.  `Graph.WellFormed` says that the two entries agree
and that an edge joins what it may join: an output and an input of different nodes, not both of them
auxiliary.

What is proved here:

* what each change of a graph does to the peers of a port: `peers_link`, `mem_peers_unlink`,
  `peers_disconnectAll`, `peers_removeNode`, `peers_insertAs`;
* that no change breaks the invariant (`WellFormed.link`, `WellFormed.unlink`, …).

Only `link` makes an edge.  All other changes leave a part of the edges, which `WellFormed.of_sublist`
turns into one argument for all of them.
-/

namespace LayerNet

namespace Node

/-- The ports of a node with their slots are the ports found at the slots. -/
theorem mem_ports {n : Node} {slot : Slot} {port : Port} :
    (slot, port) ∈ n.ports ↔ n.port? slot = some port := by
  cases slot with
  | input => simp [ports, port?, eq_comm]
  | output => simp [ports, port?, eq_comm]
  | aux index => simp [ports, port?, List.mem_zipIdx_iff_getElem?]

end Node

namespace Graph

variable {g g' : Graph} {a b p q r : PortRef} {id : NodeId}

/-! ## Ports and peers -/

theorem peers_eq (g : Graph) (p : PortRef) : g.peers p = ((g.port? p).map Port.peers).getD [] := by
  unfold peers
  cases g.port? p <;> rfl

theorem isConnected_iff : g.isConnected a b = true ↔ b ∈ g.peers a := decide_eq_true_iff

theorem isConnected_eq_false_iff : g.isConnected a b = false ↔ b ∉ g.peers a :=
  decide_eq_false_iff_not

/-- A port exists if it has a direction. -/
theorem isSome_port? (g : Graph) (p : PortRef) : (g.port? p).isSome = (g.direction? p).isSome := by
  rw [port?, direction?]
  cases g.node? p.node with
  | none => rfl
  | some n => exact n.isSome_port? p.slot

theorem node?_isSome_of_direction? {d : Direction} (h : g.direction? p = some d) :
    (g.node? p.node).isSome := by
  unfold direction? at h
  cases hn : g.node? p.node with
  | none => simp [hn] at h
  | some n => rfl

theorem length_ids (g : Graph) : g.ids.length = g.size := List.length_map ..

theorem mem_ids : id ∈ g.ids ↔ (g.node? id).isSome := by
  constructor
  · intro h
    obtain ⟨n, hn, rfl⟩ := List.mem_map.1 h
    rw [node?, Keyed.get?_eq_some_iff.2 ⟨hn, rfl⟩, Option.isSome_some]
  · intro h
    obtain ⟨n, hn⟩ := Option.isSome_iff_exists.1 h
    exact List.mem_map.2 ⟨n, Keyed.mem_of_get? hn, Keyed.key_of_get? hn⟩

theorem exists_node? (h : id ∈ g.ids) : ∃ n, g.node? id = some n :=
  Option.isSome_iff_exists.1 (mem_ids.1 h)

theorem mem_ids_of_node? {n : Node} (h : g.node? id = some n) : id ∈ g.ids :=
  mem_ids.2 (by rw [h, Option.isSome_some])

/-- Changing one port changes its peers and no others.  A change that makes peers out of nothing
needs an existing port. -/
theorem peers_modifyPort {f : Port → Port} (change : List PortRef → List PortRef)
    (hf : ∀ port, (f port).peers = change port.peers)
    (hnil : g.port? p = none → change [] = []) (q : PortRef) :
    (g.modifyPort p f).peers q = if p = q then change (g.peers q) else g.peers q := by
  rw [peers_eq, peers_eq, port?_modifyPort]
  split
  · rename_i h
    subst h
    cases hp : g.port? p with
    | none => simp [hnil hp]
    | some port => simp [hf]
  · rfl

/-! ## What the changes do to the peers -/

/-- An attached peer stands at the end of the list, unless it was there before. -/
def attachTo (x : PortRef) (peers : List PortRef) : List PortRef :=
  if x ∈ peers then peers else peers ++ [x]

theorem mem_attachTo {x y : PortRef} {peers : List PortRef} :
    y ∈ attachTo x peers ↔ y ∈ peers ∨ y = x := by
  rw [attachTo]
  split
  · rename_i hx
    exact ⟨Or.inl, fun h => h.elim id fun e => e ▸ hx⟩
  · simp

theorem peers_attach (x : PortRef) (port : Port) :
    (port.attach x).peers = attachTo x port.peers := by
  rw [Port.attach, attachTo]
  split <;> rfl

/-- The two ends of an edge are entered in both lists. -/
theorem peers_link_eq (ha : (g.port? a).isSome) (hb : (g.port? b).isSome) (hne : a ≠ b)
    (q : PortRef) :
    (g.link a b).peers q =
      if q = a then attachTo b (g.peers q)
      else if q = b then attachTo a (g.peers q) else g.peers q := by
  have hfirst : ∀ q, (g.modifyPort a fun p => p.attach b).peers q =
      if a = q then attachTo b (g.peers q) else g.peers q :=
    peers_modifyPort (attachTo b) (peers_attach b) fun h => by simp [h] at ha
  have hsome : ((g.modifyPort a fun p => p.attach b).port? b).isSome := by
    rw [port?_modifyPort]
    split <;> simpa using hb
  rw [link, peers_modifyPort (attachTo a) (peers_attach a) fun h => by simp [h] at hsome, hfirst]
  by_cases hqb : b = q
  · subst hqb
    simp [hne, Ne.symm hne]
  · simp only [if_neg hqb, if_neg (Ne.symm hqb), eq_comm (a := a)]

/-- A new edge is entered at the end of both lists. -/
theorem peers_link (ha : (g.port? a).isSome) (hb : (g.port? b).isSome) (hne : a ≠ b)
    (hab : b ∉ g.peers a) (hba : a ∉ g.peers b) (q : PortRef) :
    (g.link a b).peers q =
      if q = a then g.peers q ++ [b] else if q = b then g.peers q ++ [a] else g.peers q := by
  rw [peers_link_eq ha hb hne]
  split
  · rename_i h
    rw [h, attachTo, if_neg hab]
  · split
    · rename_i h
      rw [h, attachTo, if_neg hba]
    · rfl

/-- The edges after joining two ports are the old ones and the new one. -/
theorem mem_peers_link (ha : (g.port? a).isSome) (hb : (g.port? b).isSome) (hne : a ≠ b) :
    r ∈ (g.link a b).peers q ↔ r ∈ g.peers q ∨ q = a ∧ r = b ∨ q = b ∧ r = a := by
  rw [peers_link_eq ha hb hne]
  by_cases hqa : q = a
  · subst hqa
    simp [mem_attachTo, hne]
  · by_cases hqb : q = b
    · subst hqb
      simp [mem_attachTo, hqa]
    · simp [hqa, hqb]

/-- Cutting an edge takes away its two entries. -/
theorem mem_peers_unlink :
    r ∈ (g.unlink a b).peers q ↔
      r ∈ g.peers q ∧ ¬(q = a ∧ r = b) ∧ ¬(q = b ∧ r = a) := by
  rw [unlink, peers_modifyPort (List.filter fun x => x ≠ a) (fun _ => rfl) (fun _ => rfl),
    peers_modifyPort (List.filter fun x => x ≠ b) (fun _ => rfl) (fun _ => rfl)]
  by_cases hqa : a = q
  · by_cases hqb : b = q
    · simp [hqa, hqb]
    · simp [hqa, hqb, Ne.symm hqb]
  · by_cases hqb : b = q
    · simp [hqa, hqb, Ne.symm hqa]
    · simp [hqa, hqb, Ne.symm hqa, Ne.symm hqb]

theorem peers_unlink_sublist (g : Graph) (a b q : PortRef) :
    ((g.unlink a b).peers q).Sublist (g.peers q) := by
  rw [unlink, peers_modifyPort (List.filter fun x => x ≠ a) (fun _ => rfl) (fun _ => rfl),
    peers_modifyPort (List.filter fun x => x ≠ b) (fun _ => rfl) (fun _ => rfl)]
  split
  · split
    · exact List.filter_sublist.trans List.filter_sublist
    · exact List.filter_sublist
  · split
    · exact List.filter_sublist
    · exact .refl _

/-- Highlights are not edges. -/
@[simp] theorem peers_setHighlighted (g : Graph) (p q : PortRef) (highlighted : Bool) :
    (g.setHighlighted p highlighted).peers q = g.peers q := by
  have h := peers_modifyPort (g := g) (p := p) (f := fun port => { port with highlighted })
    (fun peers => peers) (fun _ => rfl) (fun _ => rfl) q
  rwa [ite_self] at h

/-- A change of a node that leaves its ports alone is not seen at any port. -/
theorem port?_modifyNode {f : Node → Node} (hid : ∀ n, (f n).id = n.id)
    (hport : ∀ n slot, (f n).port? slot = n.port? slot) (q : PortRef) :
    (g.modifyNode id f hid).port? q = g.port? q := by
  rw [port?, port?, node?_modifyNode]
  split
  · cases g.node? q.node with
    | none => rfl
    | some n => exact hport n q.slot
  · rfl

theorem direction?_modifyNode {f : Node → Node} (hid : ∀ n, (f n).id = n.id)
    (hdir : ∀ n slot, (f n).direction? slot = n.direction? slot) (q : PortRef) :
    (g.modifyNode id f hid).direction? q = g.direction? q := by
  rw [direction?, direction?, node?_modifyNode]
  split
  · cases g.node? q.node with
    | none => rfl
    | some n => exact hdir n q.slot
  · rfl

@[simp] theorem port?_editNode (g : Graph) (id : NodeId) (e : NodeEdit) (q : PortRef) :
    (g.editNode id e).port? q = g.port? q :=
  port?_modifyNode _ (fun n slot => by cases slot <;> rfl) q

@[simp] theorem peers_editNode (g : Graph) (id : NodeId) (e : NodeEdit) (q : PortRef) :
    (g.editNode id e).peers q = g.peers q := by
  rw [peers_eq, peers_eq, port?_editNode]

@[simp] theorem direction?_editNode (g : Graph) (id : NodeId) (e : NodeEdit) (q : PortRef) :
    (g.editNode id e).direction? q = g.direction? q :=
  direction?_modifyNode _ (fun n slot => by cases slot <;> rfl) q

@[simp] theorem direction?_link (g : Graph) (a b q : PortRef) :
    (g.link a b).direction? q = g.direction? q := by
  rw [link, direction?_modifyPort, direction?_modifyPort]

@[simp] theorem direction?_unlink (g : Graph) (a b q : PortRef) :
    (g.unlink a b).direction? q = g.direction? q := by
  rw [unlink, direction?_modifyPort, direction?_modifyPort]

@[simp] theorem direction?_setHighlighted (g : Graph) (p q : PortRef) (highlighted : Bool) :
    (g.setHighlighted p highlighted).direction? q = g.direction? q := direction?_modifyPort ..

/-! ## The invariant -/

/-- Every edge is entered once on both sides and joins an output and an input of different nodes, of
which at most one is auxiliary. -/
structure WellFormed (g : Graph) : Prop where
  symm : ∀ {p q}, q ∈ g.peers p → p ∈ g.peers q
  nodup : ∀ p, (g.peers p).Nodup
  directed : ∀ {p q}, q ∈ g.peers p →
    ∃ d, g.direction? p = some d ∧ g.direction? q = some d.opposite
  node_ne : ∀ {p q}, q ∈ g.peers p → p.node ≠ q.node
  primary : ∀ {p q}, q ∈ g.peers p → p.slot.isAux = false ∨ q.slot.isAux = false

/-- A peer sits at a node of the graph. -/
theorem WellFormed.peer_mem_ids (hg : g.WellFormed) (h : q ∈ g.peers p) : q.node ∈ g.ids := by
  obtain ⟨d, -, hq⟩ := hg.directed h
  exact mem_ids.2 (node?_isSome_of_direction? hq)

/-- A graph without edges is well-formed. -/
theorem wellFormed_of_peers_nil (h : ∀ p, g.peers p = []) : g.WellFormed where
  symm hq := by simp [h] at hq
  nodup p := by simp [h]
  directed hq := by simp [h] at hq
  node_ne hq := by simp [h] at hq
  primary hq := by simp [h] at hq

/-- A change that only takes edges away, on both sides, keeps the invariant. -/
theorem WellFormed.of_sublist (hg : g.WellFormed)
    (hsub : ∀ p, (g'.peers p).Sublist (g.peers p))
    (hsymm : ∀ p q, q ∈ g'.peers p → p ∈ g'.peers q)
    (hdir : ∀ p q, q ∈ g'.peers p → g'.direction? p = g.direction? p) : g'.WellFormed where
  symm hq := hsymm _ _ hq
  nodup p := (hg.nodup p).sublist (hsub p)
  directed hq := by
    rw [hdir _ _ hq, hdir _ _ (hsymm _ _ hq)]
    exact hg.directed ((hsub _).subset hq)
  node_ne hq := hg.node_ne ((hsub _).subset hq)
  primary hq := hg.primary ((hsub _).subset hq)

/-- A change that leaves edges and directions alone keeps the invariant. -/
theorem WellFormed.congr (hg : g.WellFormed) (hpeers : ∀ p, g'.peers p = g.peers p)
    (hdir : ∀ p, g'.direction? p = g.direction? p) : g'.WellFormed :=
  hg.of_sublist (fun p => by rw [hpeers]) (fun p q hq => by rw [hpeers] at hq ⊢; exact hg.symm hq)
    fun p _ _ => hdir p

theorem WellFormed.unlink (hg : g.WellFormed) (a b : PortRef) : (g.unlink a b).WellFormed := by
  refine hg.of_sublist (peers_unlink_sublist g a b) (fun p q hq => ?_)
    fun p _ _ => direction?_unlink ..
  rw [mem_peers_unlink] at hq ⊢
  exact ⟨hg.symm hq.1, fun h => hq.2.2 ⟨h.2, h.1⟩, fun h => hq.2.1 ⟨h.2, h.1⟩⟩

/-! ## Taking all edges of a node away -/

/-- What is left of the peers of a port when the node `id` has lost its edges. -/
def peersWithout (g : Graph) (id : NodeId) (q : PortRef) : List PortRef :=
  if q.node = id then [] else (g.peers q).filter fun r => r.node ≠ id

theorem mem_peersWithout :
    r ∈ g.peersWithout id q ↔ r ∈ g.peers q ∧ q.node ≠ id ∧ r.node ≠ id := by
  unfold peersWithout
  split
  · rename_i h
    simp [h]
  · rename_i h
    simp [h]

theorem peersWithout_sublist (g : Graph) (id : NodeId) (q : PortRef) :
    (g.peersWithout id q).Sublist (g.peers q) := by
  unfold peersWithout
  split
  · exact List.nil_sublist _
  · exact List.filter_sublist

/-- Detaching a node at a list of ports is seen at these ports. -/
theorem peers_foldl_detachNode (l : List PortRef) (g : Graph) (id : NodeId) (q : PortRef) :
    (l.foldl (fun g peer => g.modifyPort peer fun p => p.detachNode id) g).peers q =
      if q ∈ l then (g.peers q).filter fun r => r.node ≠ id else g.peers q := by
  induction l generalizing g with
  | nil => simp
  | cons p l ih =>
    rw [List.foldl_cons, ih,
      peers_modifyPort (List.filter fun r => r.node ≠ id) (fun _ => rfl) fun _ => rfl]
    by_cases hp : p = q
    · simp [hp]
    · simp [hp, Ne.symm hp]

/-- What stays as it is when a node is detached from a port and when it is severed stays as it is when
all its edges are taken away. -/
theorem disconnectAll_invariant {α : Type} (look : Graph → α) (id : NodeId)
    (hport : ∀ g p, look (g.modifyPort p fun port => port.detachNode id) = look g)
    (hsever : ∀ g, look (g.modifyNode id (fun n => n.mapPorts Port.severed) fun n =>
      n.id_mapPorts _) = look g) (g : Graph) : look (g.disconnectAll id) = look g := by
  unfold disconnectAll
  split
  · rfl
  · have hfold : ∀ (l : List PortRef) (g : Graph),
        look (l.foldl (fun g peer => g.modifyPort peer fun p => p.detachNode id) g) = look g := by
      intro l
      induction l with
      | nil => exact fun _ => rfl
      | cons p l ih => exact fun g => (ih _).trans (hport ..)
    rw [hfold, hsever]

@[simp] theorem direction?_disconnectAll (g : Graph) (id : NodeId) (q : PortRef) :
    (g.disconnectAll id).direction? q = g.direction? q :=
  disconnectAll_invariant (fun g => g.direction? q) id (fun _ _ => direction?_modifyPort ..)
    (fun _ => direction?_modifyNode _ (fun n slot => n.direction?_mapPorts slot _) q) g

/-- The ports of the node lose their peers, and all other ports lose the peers at the node. -/
theorem WellFormed.peers_disconnectAll (hg : g.WellFormed) (id : NodeId) (q : PortRef) :
    (g.disconnectAll id).peers q = g.peersWithout id q := by
  unfold disconnectAll
  split
  · -- without the node there is no edge to it
    rename_i hid
    have hout : ∀ r ∈ g.peers q, r.node ≠ id := by
      rintro r hr rfl
      rw [← Option.not_isSome_iff_eq_none] at hid
      exact hid (mem_ids.1 (hg.peer_mem_ids hr))
    unfold peersWithout
    split
    · rename_i h
      exact peers_eq_nil fun hm => by simp [mem_ids, h, hid] at hm
    · exact (List.filter_eq_self.2 fun r hr => by simpa using hout r hr).symm
  · rename_i n hn
    have hbare : ∀ q : PortRef, (g.modifyNode id (fun n => n.mapPorts Port.severed)
        fun n => n.id_mapPorts _).peers q = if q.node = id then [] else g.peers q := by
      intro q
      rw [peers_eq, port?, node?_modifyNode]
      split
      · cases g.node? q.node with
        | none => rfl
        | some n =>
          simp only [Option.map_some, Option.bind_some, Node.port?_mapPorts]
          cases n.port? q.slot <;> rfl
      · rw [peers_eq, port?]
    rw [peers_foldl_detachNode, hbare, peersWithout]
    by_cases hq : q.node = id
    · simp [hq]
    · rw [if_neg hq, if_neg hq]
      split
      · rfl
      · -- a port with a peer at the node is one of the severed peers
        rename_i hsevered
        refine (List.filter_eq_self.2 fun r hr => ?_).symm
        rw [decide_eq_true_iff]
        rintro rfl
        have hback := hg.symm hr
        rw [peers, port?, hn, Option.bind_some] at hback
        cases hport : n.port? r.slot with
        | none => simp [hport] at hback
        | some port =>
          rw [hport] at hback
          exact hsevered (List.mem_flatMap.2 ⟨(r.slot, port), Node.mem_ports.2 hport, hback⟩)

theorem mem_ids_of_mem_peers (h : q ∈ g.peers p) : p.node ∈ g.ids := by
  by_contra hn
  rw [peers_eq_nil hn] at h
  exact absurd h List.not_mem_nil

/-- A graph that has lost the edges of a node, and perhaps gained or lost a node without edges
there, is well-formed. -/
theorem WellFormed.without (hg : g.WellFormed) (hpeers : ∀ q, g'.peers q = g.peersWithout id q)
    (hdir : ∀ q, q.node ≠ id → g'.direction? q = g.direction? q) : g'.WellFormed := by
  refine hg.of_sublist (fun p => ?_) (fun p q hq => ?_) fun p q hq => hdir p ?_
  · rw [hpeers]
    exact peersWithout_sublist g id p
  · rw [hpeers, mem_peersWithout] at hq ⊢
    exact ⟨hg.symm hq.1, hq.2.2, hq.2.1⟩
  · rw [hpeers, mem_peersWithout] at hq
    exact hq.2.1

theorem WellFormed.disconnectAll (hg : g.WellFormed) (id : NodeId) :
    (g.disconnectAll id).WellFormed :=
  hg.without (hg.peers_disconnectAll id) fun _ _ => direction?_disconnectAll ..

/-! ## Removing and adding nodes -/

theorem node?_removeNode (g : Graph) (id i : NodeId) :
    (g.removeNode id).1.node? i = if i = id then none else (g.disconnectAll id).node? i :=
  Keyed.get?_erase ..

/-- Removing a node takes its edges away. -/
theorem WellFormed.peers_removeNode (hg : g.WellFormed) (id : NodeId) (q : PortRef) :
    (g.removeNode id).1.peers q = g.peersWithout id q := by
  rw [← hg.peers_disconnectAll, peers_eq, port?, node?_removeNode]
  split
  · rename_i h
    rw [hg.peers_disconnectAll, peersWithout, if_pos h]
    rfl
  · rw [peers_eq, port?]

theorem direction?_removeNode (g : Graph) (h : q.node ≠ id) :
    (g.removeNode id).1.direction? q = g.direction? q := by
  rw [direction?, node?_removeNode, if_neg h, ← direction?, direction?_disconnectAll]

theorem WellFormed.removeNode (hg : g.WellFormed) (id : NodeId) : (g.removeNode id).1.WellFormed :=
  hg.without (hg.peers_removeNode id) fun _ h => direction?_removeNode g h

/-- An inserted node stands under its id, and the graph without the old one stays. -/
theorem node?_insertAs (g : Graph) (id i : NodeId) (n : Node) :
    (g.insertAs id n).node? i =
      if i = id then some { n.mapPorts fun _ => {} with id }
      else (if (g.node? id).isSome then (g.removeNode id).1 else g).node? i :=
  Keyed.get?_insert ..

/-- Inserting a node brings no edges along, and takes those of its predecessor away. -/
theorem WellFormed.peers_insertAs (hg : g.WellFormed) (id : NodeId) (n : Node) (q : PortRef) :
    (g.insertAs id n).peers q = g.peersWithout id q := by
  rw [peers_eq, port?, node?_insertAs]
  split
  · rename_i h
    rw [peersWithout, if_pos h, Option.bind_some]
    have hport : Node.port? { n.mapPorts fun _ => {} with id } q.slot =
        (n.port? q.slot).map fun _ => {} := n.port?_mapPorts q.slot fun _ => {}
    rw [hport]
    cases n.port? q.slot <;> rfl
  · rename_i h
    rw [← port?, ← peers_eq]
    split
    · exact hg.peers_removeNode id q
    · -- a node that is not there has no edges
      rename_i hid
      rw [← hg.peers_disconnectAll, Graph.disconnectAll, Option.not_isSome_iff_eq_none.1 hid]

theorem direction?_insertAs (g : Graph) (n : Node) (h : q.node ≠ id) :
    (g.insertAs id n).direction? q = g.direction? q := by
  rw [direction?, node?_insertAs, if_neg h, ← direction?]
  split
  · exact direction?_removeNode g h
  · rfl

theorem WellFormed.insertAs (hg : g.WellFormed) (id : NodeId) (n : Node) :
    (g.insertAs id n).WellFormed :=
  hg.without (hg.peers_insertAs id n) fun _ h => direction?_insertAs g n h

/-! ## Making edges -/

/-- The ports that an edge may join. -/
structure Joinable (g : Graph) (a b : PortRef) : Prop where
  directed : ∃ d, g.direction? a = some d ∧ g.direction? b = some d.opposite
  node_ne : a.node ≠ b.node
  primary : a.slot.isAux = false ∨ b.slot.isAux = false

theorem Joinable.ne (h : g.Joinable a b) : a ≠ b := fun e => h.node_ne (congrArg PortRef.node e)

theorem Joinable.isSome_port? (h : g.Joinable a b) :
    (g.port? a).isSome ∧ (g.port? b).isSome := by
  obtain ⟨d, ha, hb⟩ := h.directed
  rw [Graph.isSome_port?, Graph.isSome_port?, ha, hb]
  exact ⟨rfl, rfl⟩

theorem Joinable.mem_peers_link (h : g.Joinable a b) :
    r ∈ (g.link a b).peers q ↔ r ∈ g.peers q ∨ q = a ∧ r = b ∨ q = b ∧ r = a :=
  Graph.mem_peers_link h.isSome_port?.1 h.isSome_port?.2 h.ne

theorem Direction.opposite_opposite (d : Direction) : d.opposite.opposite = d := by
  cases d <;> rfl

theorem WellFormed.link (hg : g.WellFormed) (h : g.Joinable a b) (hab : b ∉ g.peers a) :
    (g.link a b).WellFormed := by
  have hports := h.isSome_port?
  obtain ⟨d, hda, hdb⟩ := h.directed
  have hmem : ∀ {q r}, r ∈ (g.link a b).peers q →
      r ∈ g.peers q ∨ q = a ∧ r = b ∨ q = b ∧ r = a := h.mem_peers_link.1
  constructor
  · intro p q hq
    refine h.mem_peers_link.2 ?_
    rcases hmem hq with hq | ⟨rfl, rfl⟩ | ⟨rfl, rfl⟩
    · exact Or.inl (hg.symm hq)
    · exact Or.inr (Or.inr ⟨rfl, rfl⟩)
    · exact Or.inr (Or.inl ⟨rfl, rfl⟩)
  · intro p
    have hba : a ∉ g.peers b := fun hba => hab (hg.symm hba)
    rw [peers_link hports.1 hports.2 h.ne hab hba]
    split
    · rename_i e
      rw [e, ← List.concat_eq_append]
      exact (hg.nodup a).concat hab
    · split
      · rename_i e
        rw [e, ← List.concat_eq_append]
        exact (hg.nodup b).concat hba
      · exact hg.nodup p
  · intro p q hq
    rw [direction?_link, direction?_link]
    rcases hmem hq with hq | ⟨rfl, rfl⟩ | ⟨rfl, rfl⟩
    · exact hg.directed hq
    · exact ⟨d, hda, hdb⟩
    · exact ⟨d.opposite, hdb, by rw [Direction.opposite_opposite, hda]⟩
  · intro p q hq
    rcases hmem hq with hq | ⟨rfl, rfl⟩ | ⟨rfl, rfl⟩
    · exact hg.node_ne hq
    · exact h.node_ne
    · exact Ne.symm h.node_ne
  · intro p q hq
    rcases hmem hq with hq | ⟨rfl, rfl⟩ | ⟨rfl, rfl⟩
    · exact hg.primary hq
    · exact h.primary
    · exact h.primary.symm

end Graph

end LayerNet
