import LayerNet.Lowering
import LayerNet.Proofs.RoundTrip
import LayerNet.Proofs.Rewiring
import Mathlib.Data.List.Sort

/-!
# Compiling a restored graph

A restored graph has the edges of the graph that was stored, but the edges at its inputs are in the
order of the outputs that they come from.  A compiler notices this in one place only: the wiring of a
special node lists the nodes that an auxiliary input reads in the order in which they were joined
(`auxLinks_eq`).  After restoring they come in the order of their ids (`orderExits`).

* `Edited.compile_restored` — a restored graph is compiled to the same forest with its wirings put in
  this order.  If they are in order already, it is compiled and built like the stored graph.
-/

namespace LayerNet

/-! ## The order of wires -/

/-- The direction of the ports that have a role. -/
def AuxRole.direction : AuxRole → Direction
  | .feedback | .entry => .output
  | .exit | .expertWeights | .experts => .input

theorem direction_role {special : Option SpecialKind} {spec : AuxPort}
    (h : spec ∈ auxLayout special) : spec.role.direction = spec.direction := by
  have hall : ∀ kind : SpecialKind, ∀ spec ∈ kind.layout,
      spec.role.direction = spec.direction := by
    intro kind
    cases kind <;> decide
  cases special with
  | none => exact absurd h List.not_mem_nil
  | some kind => exact hall kind spec h

/-- What a wire is ordered by at its port: at an auxiliary input its node, at an auxiliary output
nothing. -/
def AuxLink.rank (link : AuxLink) : Nat :=
  match link.role.direction with
  | .input => link.node
  | .output => 0

/-- The order of wires by their ports, and within a port by their ranks. -/
def AuxLink.Le (a b : AuxLink) : Prop := a.port < b.port ∨ a.port = b.port ∧ a.rank ≤ b.rank

instance : DecidableRel AuxLink.Le := fun a b =>
  inferInstanceAs (Decidable (a.port < b.port ∨ a.port = b.port ∧ a.rank ≤ b.rank))

/-- A wiring in which every auxiliary input reads its nodes in the order of their ids.  The wires of
auxiliary outputs stay in their order. -/
def orderExits (links : List AuxLink) : List AuxLink := links.insertionSort AuxLink.Le

/-- Parts of a list that are in order among each other are sorted one by one. -/
theorem insertionSort_append {α : Type} {r : α → α → Prop} [DecidableRel r] {l m : List α}
    (h : ∀ a ∈ l, ∀ b ∈ m, r a b) :
    (l ++ m).insertionSort r = l.insertionSort r ++ m.insertionSort r := by
  have hinsert : ∀ (a : α) (s t : List α), (∀ b ∈ t, r a b) →
      (s ++ t).orderedInsert r a = s.orderedInsert r a ++ t := by
    intro a s t ht
    induction s with
    | nil =>
      cases t with
      | nil => rfl
      | cons b t => exact List.orderedInsert_cons_of_le r t (ht b List.mem_cons_self)
    | cons b s ih =>
      by_cases hab : r a b
      · rw [List.cons_append, List.orderedInsert_cons_of_le r _ hab,
          List.orderedInsert_cons_of_le r _ hab]
        rfl
      · rw [List.cons_append, List.orderedInsert_of_not_le r _ hab,
          List.orderedInsert_of_not_le r _ hab, ih]
        rfl
  induction l with
  | nil => rfl
  | cons a l ih =>
    rw [List.cons_append, List.insertionSort_cons, List.insertionSort_cons,
      ih fun x hx => h x (List.mem_cons_of_mem a hx)]
    refine hinsert a _ _ fun b hb => h a List.mem_cons_self b ?_
    exact (List.mem_insertionSort r).1 hb

theorem insertionSort_flatMap {α β : Type} {r : β → β → Prop} [DecidableRel r] {parts : List α}
    {f : α → List β} (h : parts.Pairwise fun x y => ∀ a ∈ f x, ∀ b ∈ f y, r a b) :
    (parts.flatMap f).insertionSort r = parts.flatMap fun x => (f x).insertionSort r := by
  induction parts with
  | nil => rfl
  | cons x parts ih =>
    obtain ⟨hx, hparts⟩ := List.pairwise_cons.1 h
    rw [List.flatMap_cons, List.flatMap_cons, insertionSort_append, ih hparts]
    intro a ha b hb
    obtain ⟨y, hy, hb⟩ := List.mem_flatMap.1 hb
    exact hx y hy a ha b hb

namespace Graph

open Expander Layer

variable {g g' : Graph} {id : NodeId} {n n' : Node} {p q : PortRef}

/-! ## The wiring of a special node -/

/-- The nodes at the other ends of the edges of a port, in their order. -/
def peerIds (g : Graph) (p : PortRef) : List NodeId := (g.peers p).map PortRef.node

/-- The wires of one auxiliary port to some nodes. -/
def wires (port : AuxPort × Nat) (nodes : List NodeId) : List (Direction × AuxLink) :=
  nodes.map fun x => (port.1.direction, ⟨port.2, port.1.role, x⟩)

/-- The wires of a node port by port. -/
theorem WellFormed.auxLinks_eq (hg : g.WellFormed) (hn : g.node? id = some n) :
    auxLinks n = (auxLayout n.special).zipIdx.flatMap fun port =>
      wires port (g.peerIds (.aux id port.2)) := by
  have hlayout : (auxLayout n.special).zipIdx =
      ((auxLayout n.special).zip n.aux).zipIdx.map (Prod.map Prod.fst fun i => i) := by
    refine Eq.trans ?_ List.zipIdx_map
    rw [List.map_fst_zip n.aux_length.ge]
  rw [auxLinks, hlayout, List.flatMap_map]
  refine List.flatMap_congr fun x hx => ?_
  obtain ⟨⟨spec, port⟩, i⟩ := x
  obtain ⟨-, hport⟩ := List.getElem?_zip_eq_some.1 (List.mem_zipIdx_iff_getElem?.1 hx)
  have hpeers : g.peers (.aux id i) = port.peers := by
    simp [peers, port?, PortRef.aux, hn, Node.port?, hport]
  -- auxiliary ports are joined to primary ports only
  have hprimary : (port.peers.filter fun peer => peer.slot.isPrimary) = port.peers := by
    refine List.filter_eq_self.2 fun q hq => ?_
    rw [← hpeers] at hq
    have hq := (hg.primary hq).resolve_left (by simp [PortRef.aux, Slot.isAux])
    cases hslot : q.slot with
    | aux j => simp [hslot, Slot.isAux] at hq
    | input => rfl
    | output => rfl
  simp only [hprimary, wires, peerIds, Prod.map, hpeers, List.map_map]
  rfl

/-! ## The wiring after restoring -/

theorem pairwise_le_peerIds_filter (g : Graph) (keep : PortRef → Bool) :
    ((g.outlets.filter keep).map PortRef.node).Pairwise (· ≤ ·) := by
  refine List.pairwise_map.2 ((g.sorted_outlets.filter _).imp fun {p q} h => ?_)
  exact h.elim Nat.le_of_lt fun h => Nat.le_of_eq h.1

/-- The nodes that an input reads come back in the order of their ids. -/
theorem Restored.peerIds_input (h : g.Restored g') (hp : g.direction? p = some .input) :
    g'.peerIds p = (g.peerIds p).insertionSort (· ≤ ·) := by
  have hperm : (g'.peerIds p).Perm ((g.peerIds p).insertionSort (· ≤ ·)) :=
    ((h.alike.peers p).map _).trans (List.perm_insertionSort ..).symm
  refine hperm.eq_of_pairwise (fun _ _ _ _ => Nat.le_antisymm) ?_ (List.pairwise_insertionSort ..)
  rw [peerIds, h.peers_eq, restoredPeers, if_pos hp]
  exact g.pairwise_le_peerIds_filter _

/-- The order in which the nodes of a port come back. -/
def orderBack : Direction → List NodeId → List NodeId
  | .input, nodes => nodes.insertionSort (· ≤ ·)
  | .output, nodes => nodes

theorem Restored.peerIds_eq (h : g.Restored g') {d : Direction} (hp : g.direction? p = some d) :
    g'.peerIds p = orderBack d (g.peerIds p) := by
  cases d with
  | input => exact h.peerIds_input hp
  | output => rw [peerIds, h.peers_output hp, orderBack, peerIds]

/-- The direction of an auxiliary port is that of its place in the layout. -/
theorem direction?_aux (hn : g.node? id = some n) {port : AuxPort × Nat}
    (hport : port ∈ (auxLayout n.special).zipIdx) :
    g.direction? (.aux id port.2) = some port.1.direction := by
  rw [direction?, PortRef.aux, hn, Option.bind_some, Node.direction?,
    List.mem_zipIdx_iff_getElem?.1 hport, Option.map_some]

/-- A restored special node has the wires of each auxiliary port in the order in which its nodes come
back. -/
theorem Restored.auxLinks_eq (h : g.Restored g') (hn : g.node? id = some n)
    (hn' : g'.node? id = some n') :
    auxLinks n' = (auxLayout n.special).zipIdx.flatMap fun port =>
      wires port (orderBack port.1.direction (g.peerIds (.aux id port.2))) := by
  obtain ⟨-, -, -, -, -, -, hspecial⟩ := Node.fields_of_bare_eq (h.alike.bare_eq hn hn')
  rw [h.wellFormed.auxLinks_eq hn', hspecial]
  refine List.flatMap_congr fun port hport => ?_
  rw [h.peerIds_eq (direction?_aux hn hport)]

theorem map_snd_wires (port : AuxPort × Nat) (nodes : List NodeId) :
    (wires port nodes).map Prod.snd = nodes.map fun x => ⟨port.2, port.1.role, x⟩ := by
  rw [wires, List.map_map]
  rfl

/-- The wires of one auxiliary port in order. -/
theorem orderExits_wires {special : Option SpecialKind} {port : AuxPort × Nat}
    (hport : port ∈ (auxLayout special).zipIdx) (nodes : List NodeId) :
    orderExits ((wires port nodes).map Prod.snd) =
      (wires port (orderBack port.1.direction nodes)).map Prod.snd := by
  have hrole := direction_role (List.mem_of_getElem? (List.mem_zipIdx_iff_getElem?.1 hport))
  rw [map_snd_wires, map_snd_wires, orderExits]
  cases hd : port.1.direction with
  | input =>
    refine (List.map_insertionSort _ _ _ _ fun x _ y _ => ?_).symm
    simp [AuxLink.Le, AuxLink.rank, hrole, hd]
  | output =>
    refine List.Pairwise.insertionSort_eq (List.pairwise_map.2 (List.pairwise_of_forall ?_))
    simp [AuxLink.Le, AuxLink.rank, hrole, hd]

/-- A wiring is in order if the wires of each port are. -/
theorem WellFormed.orderExits_auxLinks (hg : g.WellFormed) (hn : g.node? id = some n) :
    orderExits ((auxLinks n).map Prod.snd) = (auxLayout n.special).zipIdx.flatMap fun port =>
      (wires port (orderBack port.1.direction (g.peerIds (.aux id port.2)))).map Prod.snd := by
  have hports : (auxLayout n.special).zipIdx.Pairwise fun p q => p.2 < q.2 := by
    refine List.pairwise_map.1 ?_
    rw [List.zipIdx_map_snd]
    exact List.pairwise_lt_range'
  rw [hg.auxLinks_eq hn, List.map_flatMap, orderExits, insertionSort_flatMap]
  · exact List.flatMap_congr fun port hport => orderExits_wires hport _
  · refine hports.imp fun {p q} hpq a ha b hb => Or.inl ?_
    rw [map_snd_wires] at ha hb
    obtain ⟨x, -, rfl⟩ := List.mem_map.1 ha
    obtain ⟨y, -, rfl⟩ := List.mem_map.1 hb
    exact hpq

/-- The wires of the auxiliary outputs come back in their order. -/
theorem Restored.filter_auxLinks_eq (h : g.Restored g') (hg : g.WellFormed)
    (hn : g.node? id = some n) (hn' : g'.node? id = some n') :
    ((auxLinks n').filter fun link => link.1 = .output) =
      (auxLinks n).filter fun link => link.1 = .output := by
  rw [h.auxLinks_eq hn hn', hg.auxLinks_eq hn, List.filter_flatMap, List.filter_flatMap]
  refine List.flatMap_congr fun port _ => ?_
  cases hd : port.1.direction with
  | input =>
    have hnone : ∀ nodes, (wires port nodes).filter (fun link => link.1 = .output) = [] := by
      intro nodes
      rw [wires, hd, List.filter_map, List.map_eq_nil_iff, List.filter_eq_nil_iff]
      simp
    rw [hnone, hnone]
  | output => rfl

theorem Restored.peers_output_eq (h : g.Restored g') (id : NodeId) :
    g'.peers (.output id) = g.peers (.output id) := by
  rw [h.peers_eq, restoredPeers, if_neg]
  intro hinput
  cases direction?_output hinput

/-- A compiler tells a restored graph apart by the order of its wirings only. -/
theorem Restored.rewired (h : g.Restored g') (hg : g.WellFormed) : g.Rewired orderExits g' where
  alike := h.alike
  peers_output := h.peers_output_eq
  heads _ _ _ hn hn' := h.filter_auxLinks_eq hg hn hn'
  links id n n' hn hn' := by
    rw [hg.orderExits_auxLinks hn, h.auxLinks_eq hn hn', List.map_flatMap]
  nil := rfl

/-- Every auxiliary input reads its nodes in the order of their ids. -/
def ExitsInOrder (g : Graph) : Prop :=
  ∀ n ∈ g.nodes.toList, ∀ port ∈ (auxLayout n.special).zipIdx, port.1.direction = .input →
    (g.peerIds (.aux n.id port.2)).Pairwise (· ≤ ·)

instance : DecidablePred ExitsInOrder := fun g => inferInstanceAs (Decidable
  (∀ n ∈ g.nodes.toList, ∀ port ∈ (auxLayout n.special).zipIdx, port.1.direction = .input →
    (g.peerIds (.aux n.id port.2)).Pairwise (· ≤ ·)))

/-- Wirings that are in order come back as they are. -/
theorem Restored.rewired_of_inOrder (h : g.Restored g') (hg : g.WellFormed)
    (horder : g.ExitsInOrder) : g.Rewired (fun links => links) g' where
  alike := h.alike
  peers_output := h.peers_output_eq
  heads _ _ _ hn hn' := h.filter_auxLinks_eq hg hn hn'
  links id n n' hn hn' := by
    rw [h.auxLinks_eq hn hn', hg.auxLinks_eq hn]
    refine congrArg _ (List.flatMap_congr fun port hport => congrArg _ ?_)
    cases hd : port.1.direction with
    | output => rfl
    | input =>
      have hsorted := horder n (mem_nodes_of_node? hn) port hport hd
      rw [id_of_node? hn] at hsorted
      exact hsorted.insertionSort_eq
  nil := rfl

/-! ## Compiling after restoring -/

/-- A restored graph is compiled to the forest of the stored graph with its wirings in order.  If the
auxiliary inputs of the stored graph are in order, nothing tells the two graphs apart, neither when
they are compiled nor when they are built. -/
theorem Edited.compile_restored (hg : g.Edited) (hs : g.Storable) (t : Option TrainSettings)
    (now : String) :
    ∃ g', (Document.ofGraph g t now).toGraph = .ok g' ∧
      (∀ config, g'.compile config = (g.compile config).map (forestMapLinks orderExits)) ∧
      (g.ExitsInOrder → ∀ config, g'.compile config = g.compile config ∧
        ∀ (ε : Type) [LayerEngine ε] (engine : ε),
          g'.build config engine = g.build config engine) := by
  obtain ⟨g', hg', h⟩ := hg.exists_restored hs t now
  have hw := hg.wellFormed
  refine ⟨g', hg', fun config => (h.rewired hw).compile_eq hw h.wellFormed config,
    fun horder config => ?_⟩
  have hcompile : g'.compile config = g.compile config := by
    rw [(h.rewired_of_inOrder hw horder).compile_eq hw h.wellFormed]
    cases g.compile config with
    | error e => rfl
    | ok forest => exact congrArg Except.ok (forestMapLinks_id forest)
  refine ⟨hcompile, fun ε _ engine => ?_⟩
  rw [build, build, hcompile]

/-- `crossed` with the auxiliary input joined in the order of the ids. -/
def uncrossed : Graph :=
  ((crossed.disconnect (.output 3) (.aux 1 1)).connect (.output 3) (.aux 1 1)).1

theorem built_uncrossed : uncrossed.Built := .connect _ _ (.disconnect _ _ built_crossed)

/-- The auxiliary input of `crossed` comes back in the other order, so its forest is not the same;
that of `uncrossed` comes back as it is. -/
theorem compile_restored_crossed :
    (∃ g' forest, (Document.ofGraph crossed none "").toGraph = .ok g' ∧
      crossed.compile {} = .ok forest ∧ g'.compile {} = .ok (forestMapLinks orderExits forest) ∧
        forestMapLinks orderExits forest ≠ forest) ∧
      ∃ g' forest, (Document.ofGraph uncrossed none "").toGraph = .ok g' ∧
        uncrossed.compile {} = .ok forest ∧ g'.compile {} = .ok forest := by
  constructor
  · obtain ⟨g', hg', hcompile, -⟩ :=
      built_crossed.edited.compile_restored storable_crossed none ""
    have htext : ((crossed.compile {}).toOption.any fun forest =>
        forestTextAt 0 (forestMapLinks orderExits forest) ≠ forestTextAt 0 forest) = true := by
      decide +kernel
    cases hforest : crossed.compile {} with
    | error e =>
      rw [hforest] at htext
      cases htext
    | ok forest =>
      rw [hforest] at htext
      refine ⟨g', forest, hg', rfl, ?_, fun e => ?_⟩
      · rw [hcompile, hforest]
        rfl
      · simp [Except.toOption, e] at htext
  · obtain ⟨g', hg', -, hsame⟩ := built_uncrossed.edited.compile_restored
      (built_uncrossed.storable (by decide +kernel)) none ""
    obtain ⟨hcompile, -⟩ := hsame (by decide +kernel) {}
    have hok : (uncrossed.compile {}).toOption.isSome = true := by decide +kernel
    cases hforest : uncrossed.compile {} with
    | error e =>
      rw [hforest] at hok
      cases hok
    | ok forest => exact ⟨g', forest, hg', rfl, hcompile.trans hforest⟩

end Graph

end LayerNet
