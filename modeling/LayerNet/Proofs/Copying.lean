import LayerNet.Proofs.Joining
import LayerNet.Proofs.Numbering

/-!
# Copying nodes

Copies of nodes get the edges among the nodes that they are copies of.  These are joined one after
the other, and a refusal would go unnoticed, so it has to be shown that there is none.

* `EdgeSet.LiesOver.lawful` — the edges of originals and copies lie over those of the originals, and
  edges over lawful edges are lawful: a path around a special node comes from one around its
  original.
* `WellFormed.connectAll_of_lawful` — edges that are lawful together are all accepted, in any order.
* `Copied` — what is known while the nodes are copied one after the other (`Copied.step`,
  `Copied.run`).
* `Edited.duplicate_exact` — what duplication does.
-/

namespace LayerNet

open Relation

/-- The port at the same slot of another node. -/
def PortRef.at (p : PortRef) (id : NodeId) : PortRef := ⟨id, p.slot⟩

namespace EdgeSet

/-- Every edge of `E` lies over an edge of `F`, its nodes taken to others by `f`.  No edge of `E`
leads from one side to the other, and on either side `f` keeps different nodes different. -/
structure LiesOver (E F : EdgeSet) (f : NodeId → NodeId) (side : NodeId → Prop) : Prop where
  edge : ∀ {p q}, E p q → F (p.at (f p.node)) (q.at (f q.node))
  same : ∀ {p q}, E p q → (side p.node ↔ side q.node)
  inj : ∀ {x y}, (side x ↔ side y) → f x = f y → x = y

namespace LiesOver

variable {E F : EdgeSet} {f : NodeId → NodeId} {side : NodeId → Prop} {s x y id : NodeId}

theorem flows (h : E.LiesOver F f side) (hxy : E.Flows x y) : F.Flows (f x) (f y) := h.edge hxy

theorem same_of_leads (h : E.LiesOver F f side) (hxy : E.Leads s x y) : side x ↔ side y := by
  obtain ⟨-, hpath⟩ := hxy
  induction hpath with
  | refl => exact Iff.rfl
  | tail _ hstep ih => exact ih.trans (h.same hstep.1)

/-- On its side, a node that is not `s` is not taken to where `s` is taken. -/
theorem leads (h : E.LiesOver F f side) (hs : side s ↔ side x) (hxy : E.Leads s x y) :
    F.Leads (f s) (f x) (f y) := by
  obtain ⟨hx, hpath⟩ := hxy
  refine ⟨fun e => hx (h.inj hs e.symm).symm, ?_⟩
  induction hpath with
  | refl => exact .refl
  | @tail u v hpath hstep ih =>
    have hsv : side s ↔ side v :=
      (hs.trans (h.same_of_leads ⟨hx, hpath⟩)).trans (h.same hstep.1)
    exact ih.tail ⟨h.flows hstep.1, fun e => hstep.2 (h.inj hsv e.symm).symm⟩

theorem same_of_captures (h : E.LiesOver F f side) (hid : E.Captures s id) : side s ↔ side id := by
  rcases hid with ⟨x, i, hx, hpath⟩ | ⟨x, i, hx, hpath⟩
  · exact (h.same hx).trans (h.same_of_leads hpath)
  · exact (h.same hx).trans (h.same_of_leads hpath).symm

theorem captures (h : E.LiesOver F f side) (hid : E.Captures s id) :
    F.Captures (f s) (f id) := by
  rcases hid with ⟨x, i, hx, hpath⟩ | ⟨x, i, hx, hpath⟩
  · exact Or.inl ⟨f x, i, h.edge hx, h.leads (h.same hx) hpath⟩
  · have hs : side s ↔ side id := (h.same hx).trans (h.same_of_leads hpath).symm
    exact Or.inr ⟨f x, i, h.edge hx, h.leads hs hpath⟩

/-- Edges over lawful edges are lawful. -/
theorem lawful (h : E.LiesOver F f side) (hF : F.Lawful) : E.Lawful := by
  refine ⟨fun x hx => ?_, fun id s t hs ht => ?_⟩
  · exact hF.acyclic (f x) (TransGen.lift f (fun _ _ huv => h.flows huv) _ _ hx)
  · refine h.inj ((h.same_of_captures hs).trans (h.same_of_captures ht).symm) ?_
    exact hF.single (f id) (f s) (f t) (h.captures hs) (h.captures ht)

end LiesOver

/-- The edges between the ports of pairs. -/
def among (edges : List (PortRef × PortRef)) : EdgeSet := fun p q =>
  ∃ e ∈ edges, between e.1 e.2 p q

theorem among_nil : among [] = ⊥ := by
  funext p q
  simp [among]

theorem among_cons (e : PortRef × PortRef) (edges : List (PortRef × PortRef)) :
    among (e :: edges) = between e.1 e.2 ⊔ among edges := by
  funext p q
  simp [among]

end EdgeSet

namespace Graph

variable {g : Graph} {E : EdgeSet}

theorem Joinable.congr {g' : Graph} {a b : PortRef} (h : g.Joinable a b)
    (hdir : ∀ p, g'.direction? p = g.direction? p) : g'.Joinable a b := by
  obtain ⟨d, ha, hb⟩ := h.directed
  exact ⟨⟨d, by rw [hdir, ha], by rw [hdir, hb]⟩, h.node_ne, h.primary⟩

/-- Edges that are lawful together are all accepted, one after the other. -/
theorem WellFormed.connectAll_of_lawful (hg : g.WellFormed) (hE : E.Lawful) (hle : g.edgeSet ≤ E)
    {edges : List (PortRef × PortRef)}
    (hedges : ∀ e ∈ edges, g.Joinable e.1 e.2 ∧ EdgeSet.between e.1 e.2 ≤ E) :
    (∀ before e after, edges = before ++ e :: after →
      ((g.connectAll before).connect e.1 e.2).2 = true) ∧
    (g.connectAll edges).edgeSet = g.edgeSet ⊔ EdgeSet.among edges := by
  induction edges generalizing g with
  | nil =>
    refine ⟨fun before e after he => by simp at he, ?_⟩
    rw [EdgeSet.among_nil, sup_bot_eq]
    rfl
  | cons e edges ih =>
    obtain ⟨⟨hjoin, hbetween⟩, hrest⟩ := List.forall_mem_cons.1 hedges
    have hcan : g.canConnect e.1 e.2 = .ok () :=
      (hg.canConnect_iff (hE.mono hle)).2 ⟨hjoin, hE.mono (sup_le hle hbetween)⟩
    have hedgeSet := hg.edgeSet_connect hcan
    obtain ⟨hlater, hall⟩ := ih (hg.connect e.1 e.2) (hedgeSet ▸ sup_le hle hbetween)
      fun e' he' => ⟨(hrest e' he').1.congr fun q => direction?_connect .., (hrest e' he').2⟩
    refine ⟨fun before e' after he => ?_, ?_⟩
    · cases before with
      | nil =>
        obtain ⟨rfl, rfl⟩ := List.cons.inj he
        exact connect_eq_true_iff.2 hcan
      | cons first before =>
        obtain ⟨rfl, hrest⟩ := List.cons.inj he
        exact hlater before e' after hrest
    · rw [EdgeSet.among_cons, ← sup_assoc, ← hedgeSet]
      exact hall

/-! ## Copies of nodes -/

variable {offset : Position} {olds ids : List NodeId} {state : Graph × List (NodeId × NodeId)}
  {id old new : NodeId} {next : NodeId}

/-- The nodes with their copies, which have the ids from `next` on. -/
def numbered (next : NodeId) (olds : List NodeId) : List (NodeId × NodeId) :=
  olds.zip (List.range' next olds.length)

theorem mem_numbered :
    (old, new) ∈ numbered next olds ↔ ∃ i, olds[i]? = some old ∧ new = next + i := by
  rw [numbered, List.mem_iff_getElem?]
  simp only [List.getElem?_zip_eq_some]
  refine exists_congr fun i => and_congr_right fun hi => ?_
  obtain ⟨hlt, -⟩ := List.getElem?_eq_some_iff.1 hi
  rw [List.getElem?_range' hlt, Option.some.injEq, Nat.one_mul, eq_comm]

theorem numbered_append (next : NodeId) (olds : List NodeId) (id : NodeId) :
    numbered next (olds ++ [id]) = numbered next olds ++ [(id, next + olds.length)] := by
  rw [numbered, List.length_append, List.length_singleton, List.range'_concat,
    List.zip_append (by simp), Nat.one_mul]
  rfl

theorem map_fst_numbered (next : NodeId) (olds : List NodeId) :
    (numbered next olds).map Prod.fst = olds := by
  rw [numbered, List.map_fst_zip (by simp)]

theorem map_snd_numbered (next : NodeId) (olds : List NodeId) :
    (numbered next olds).map Prod.snd = List.range' next olds.length := by
  rw [numbered, List.map_snd_zip (by simp)]

/-- The copy of a node. -/
def copyOf (n : Node) (id : NodeId) (offset : Position) : Node :=
  { ({ n with position := n.position.move offset } : Node).mapPorts fun _ => {} with id }

/-- The nodes `olds` have been copied. -/
structure Copied (g : Graph) (offset : Position) (olds : List NodeId)
    (state : Graph × List (NodeId × NodeId)) : Prop where
  copies_eq : state.2 = numbered g.nextId olds
  nodup : olds.Nodup
  nextId_eq : g.nextId + olds.length ≤ maxId → state.1.nextId = g.nextId + olds.length
  mem_ids : ∀ {id}, id ∈ state.1.ids ↔ id ∈ g.ids ∨ id ∈ List.range' g.nextId olds.length
  wellFormed : state.1.WellFormed
  peers : ∀ p, state.1.peers p = g.peers p
  kept : ∀ id ∈ g.ids, state.1.node? id = g.node? id
  copied : ∀ {old new}, (old, new) ∈ state.2 →
    ∃ n, g.node? old = some n ∧ state.1.node? new = some (copyOf n new offset)

theorem Copied.refl (hg : g.WellFormed) (offset : Position) : Copied g offset [] (g, []) where
  copies_eq := rfl
  nodup := List.nodup_nil
  nextId_eq _ := rfl
  mem_ids := by simp
  wellFormed := hg
  peers _ := rfl
  kept _ _ := rfl
  copied h := absurd h List.not_mem_nil

/-- After `count` new nodes there is room for one more: the counter gives it an id, which no node
has. -/
def Room (g : Graph) (count : Nat) : Prop := g.nextId + count ≤ maxId ∧ g.nextId + count ∉ g.ids

instance (g : Graph) (count : Nat) : Decidable (g.Room count) :=
  inferInstanceAs (Decidable (_ ∧ _))

theorem Copied.lookup_isSome_iff (h : Copied g offset olds state) :
    (state.2.lookup id).isSome = true ↔ id ∈ olds := by
  rw [h.copies_eq, ← Option.ne_none_iff_isSome, Ne, List.lookup_eq_none_iff]
  have hmem : id ∈ olds ↔ id ∈ (numbered g.nextId olds).map Prod.fst := by rw [map_fst_numbered]
  rw [hmem]
  simp

theorem WellFormed.peersWithout_of_not_mem (hg : g.WellFormed) (hid : id ∉ g.ids) (p : PortRef) :
    g.peersWithout id p = g.peers p := by
  rw [mem_ids, Option.not_isSome_iff_eq_none] at hid
  rw [← hg.peers_disconnectAll, Graph.disconnectAll, hid]

/-- A node is copied unless it was copied before. -/
theorem Copied.step (h : Copied g offset olds state) (hid : id ∈ g.ids)
    (hroom : id ∉ olds → g.Room olds.length) :
    Copied g offset (if id ∈ olds then olds else olds ++ [id]) (copyNode offset state id) := by
  obtain ⟨g', copies⟩ := state
  rw [copyNode]
  dsimp only
  by_cases hold : id ∈ olds
  · rw [if_pos hold, if_pos (h.lookup_isSome_iff.2 hold)]
    exact h
  · obtain ⟨hmax, hfresh⟩ := hroom hold
    obtain ⟨n, hn⟩ := exists_node? hid
    have hnext : g'.nextId = g.nextId + olds.length := h.nextId_eq hmax
    have hnew : g'.nextId ∉ g'.ids := by
      rw [hnext, h.mem_ids]
      simp [hfresh]
    rw [if_neg hold, if_neg (fun hsome => hold (h.lookup_isSome_iff.1 hsome)), h.kept id hid, hn]
    dsimp only [addNode]
    refine ⟨?_, ?_, fun _ => ?_, fun {i} => ?_, h.wellFormed.insertAs _ _, fun p => ?_,
      fun i hi => ?_, fun {old new} hc => ?_⟩
    · rw [numbered_append, ← h.copies_eq, hnext]
    · rw [← List.concat_eq_append]
      exact h.nodup.concat hold
    · change (g'.addNode _).1.nextId = _
      rw [nextId_addNode (hnext ▸ hmax), hnext, List.length_append,
        List.length_singleton]
      grind
    · rw [mem_ids_insertAs, h.mem_ids, hnext, List.length_append, List.length_singleton,
        List.range'_concat, List.mem_append, Nat.one_mul, List.mem_singleton, or_comm, or_assoc]
    · rw [h.wellFormed.peers_insertAs, h.wellFormed.peersWithout_of_not_mem hnew, h.peers]
    · have hi' : i ∈ g'.ids := h.mem_ids.2 (Or.inl hi)
      rw [node?_insertAs_of_not_mem hnew (fun e => hnew (e ▸ hi')), h.kept i hi]
    · rcases List.mem_append.1 hc with hc | hc
      · obtain ⟨m, hm, hcopy⟩ := h.copied hc
        have hi : new ∈ g'.ids := mem_ids_of_node? hcopy
        exact ⟨m, hm, by rw [node?_insertAs_of_not_mem hnew (fun e => hnew (e ▸ hi)), hcopy]⟩
      · cases List.mem_singleton.1 hc
        exact ⟨n, hn, by rw [node?_insertAs, if_pos rfl]; rfl⟩

theorem eraseDups_filter_cons (h : id ∉ olds) (ids : List NodeId) :
    olds ++ ((id :: ids).filter fun i => i ∉ olds).eraseDups =
      (olds ++ [id]) ++ (ids.filter fun i => i ∉ olds ++ [id]).eraseDups := by
  have hfilter : (ids.filter fun i => i ∉ olds).filter (fun i => !i == id) =
      ids.filter fun i => i ∉ olds ++ [id] := by
    rw [List.filter_filter]
    refine List.filter_congr fun i _ => ?_
    by_cases hi : i = id <;> simp [hi]
  rw [List.filter_cons_of_pos (by simpa using h), List.eraseDups_cons, hfilter, List.append_assoc,
    List.singleton_append]

/-- All nodes of a list are copied, in the order in which they occur first. -/
theorem Copied.run (h : Copied g offset olds state) (hids : ∀ id ∈ ids, id ∈ g.ids)
    (hroom : ∀ i < (olds ++ (ids.filter fun i => i ∉ olds).eraseDups).length, g.Room i) :
    Copied g offset (olds ++ (ids.filter fun i => i ∉ olds).eraseDups)
      (ids.foldl (copyNode offset) state) := by
  induction ids generalizing olds state with
  | nil => simpa using h
  | cons id ids ih =>
    obtain ⟨hid, hrest⟩ := List.forall_mem_cons.1 hids
    rw [List.foldl_cons]
    by_cases hold : id ∈ olds
    · rw [List.filter_cons_of_neg (by simpa using hold)] at hroom ⊢
      have hstep := h.step hid fun hnew => absurd hold hnew
      rw [if_pos hold] at hstep
      exact ih hstep hrest hroom
    · rw [eraseDups_filter_cons hold] at hroom ⊢
      have hstep := h.step hid fun _ => hroom olds.length (by simp)
      rw [if_neg hold] at hstep
      exact ih hstep hrest hroom

/-! ## Copies of edges -/

/-- The edges of the copies: those of the copied nodes, carried over. -/
inductive CopiedEdge (g : Graph) (copies : List (NodeId × NodeId)) : PortRef → PortRef → Prop
  | mk {p q : PortRef} {x y : NodeId} : q ∈ g.peers p → (p.node, x) ∈ copies →
    (q.node, y) ∈ copies → CopiedEdge g copies (p.at x) (q.at y)

theorem Copied.new_eq {new' : NodeId} (h : Copied g offset olds state) (hc : (old, new) ∈ state.2)
    (hc' : (old, new') ∈ state.2) : new = new' := by
  rw [h.copies_eq, mem_numbered] at hc hc'
  obtain ⟨i, hi, rfl⟩ := hc
  obtain ⟨j, hj, rfl⟩ := hc'
  obtain ⟨hlt, -⟩ := List.getElem?_eq_some_iff.1 hi
  rw [(List.getElem?_inj hlt h.nodup).1 (hi.trans hj.symm)]

theorem Copied.old_eq {old' : NodeId} (h : Copied g offset olds state) (hc : (old, new) ∈ state.2)
    (hc' : (old', new) ∈ state.2) : old = old' := by
  rw [h.copies_eq, mem_numbered] at hc hc'
  obtain ⟨i, hi, rfl⟩ := hc
  obtain ⟨j, hj, hij⟩ := hc'
  obtain rfl : i = j := Nat.add_left_cancel hij
  exact Option.some.inj (hi.symm.trans hj)

theorem Copied.lookup_eq_some_iff (h : Copied g offset olds state) :
    state.2.lookup old = some new ↔ (old, new) ∈ state.2 := by
  refine ⟨mem_of_lookup, fun hc => ?_⟩
  have hold : old ∈ olds := by
    rw [← map_fst_numbered g.nextId olds, ← h.copies_eq]
    exact List.mem_map_of_mem hc
  obtain ⟨new', hnew'⟩ := Option.isSome_iff_exists.1 (h.lookup_isSome_iff.2 hold)
  rw [hnew', h.new_eq (mem_of_lookup hnew') hc]

theorem mem_peers_iff {n : Node} {p q : PortRef} (hn : g.node? p.node = some n) :
    q ∈ g.peers p ↔ ∃ port, n.port? p.slot = some port ∧ q ∈ port.peers := by
  rw [peers, port?, hn, Option.bind_some]
  cases n.port? p.slot <;> simp

theorem direction?_of_node? {n : Node} {p : PortRef} (hn : g.node? p.node = some n) :
    g.direction? p = n.direction? p.slot := by
  rw [direction?, hn, Option.bind_some]

/-- The edges among the copied nodes are carried over from their outputs. -/
theorem Copied.mem_copiedEdges (h : Copied g offset olds state) {e : PortRef × PortRef} :
    e ∈ state.1.copiedEdges state.2 ↔ ∃ p q x y, q ∈ g.peers p ∧
      g.direction? p = some .output ∧ (p.node, x) ∈ state.2 ∧ (q.node, y) ∈ state.2 ∧
      e = (p.at x, q.at y) := by
  rw [copiedEdges, List.mem_flatMap]
  constructor
  · rintro ⟨⟨old, new⟩, hc, he⟩
    obtain ⟨n, hn, -⟩ := h.copied hc
    dsimp only at he
    rw [h.kept old (mem_ids_of_node? hn), hn] at he
    obtain ⟨⟨slot, port⟩, hport, he⟩ := List.mem_flatMap.1 he
    obtain ⟨hport, hdir⟩ := List.mem_filter.1 hport
    obtain ⟨peer, hpeer, he⟩ := List.mem_filterMap.1 he
    obtain ⟨peerNew, hlookup, rfl⟩ := Option.map_eq_some_iff.1 he
    have hold : g.node? (PortRef.mk old slot).node = some n := hn
    refine ⟨⟨old, slot⟩, peer, new, peerNew, ?_, ?_, hc, h.lookup_eq_some_iff.1 hlookup, rfl⟩
    · exact (mem_peers_iff hold).2 ⟨port, Node.mem_ports.1 hport, hpeer⟩
    · rw [direction?_of_node? hold]
      exact of_decide_eq_true hdir
  · rintro ⟨p, q, x, y, hpeer, hdir, hx, hy, rfl⟩
    obtain ⟨n, hn, -⟩ := h.copied hx
    obtain ⟨port, hport, hq⟩ := (mem_peers_iff hn).1 hpeer
    refine ⟨(p.node, x), hx, ?_⟩
    dsimp only
    rw [h.kept p.node (mem_ids_of_node? hn), hn]
    refine List.mem_flatMap.2 ⟨(p.slot, port), List.mem_filter.2 ⟨Node.mem_ports.2 hport, ?_⟩, ?_⟩
    · exact decide_eq_true ((direction?_of_node? hn).symm.trans hdir)
    · refine List.mem_filterMap.2 ⟨q, hq, ?_⟩
      rw [h.lookup_eq_some_iff.2 hy]
      rfl

/-- Together, the copied edges are all edges of the copies. -/
theorem Copied.among_copiedEdges (h : Copied g offset olds state) (hg : g.WellFormed) :
    EdgeSet.among (state.1.copiedEdges state.2) = CopiedEdge g state.2 := by
  funext a b
  refine propext ⟨?_, ?_⟩
  · rintro ⟨e, he, hab⟩
    obtain ⟨p, q, x, y, hpeer, -, hx, hy, rfl⟩ := h.mem_copiedEdges.1 he
    rcases hab with ⟨rfl, rfl⟩ | ⟨rfl, rfl⟩
    · exact .mk hpeer hx hy
    · exact .mk (hg.symm hpeer) hy hx
  · rintro ⟨hpeer, hx, hy⟩
    rename_i p q x y
    obtain ⟨d, hp, hq⟩ := hg.directed hpeer
    cases d with
    | output =>
      exact ⟨_, h.mem_copiedEdges.2 ⟨p, q, x, y, hpeer, hp, hx, hy, rfl⟩, Or.inl ⟨rfl, rfl⟩⟩
    | input =>
      exact ⟨_, h.mem_copiedEdges.2 ⟨q, p, y, x, hg.symm hpeer, hq, hy, hx, rfl⟩,
        Or.inr ⟨rfl, rfl⟩⟩

/-! ## No copied edge is refused -/

/-- The node that a copy was made of; other nodes stand for themselves. -/
def original (next : NodeId) (olds : List NodeId) (id : NodeId) : NodeId :=
  if next ≤ id then (olds[id - next]?).getD id else id

theorem Copied.original_new (h : Copied g offset olds state) (hc : (old, new) ∈ state.2) :
    original g.nextId olds new = old := by
  rw [h.copies_eq, mem_numbered] at hc
  obtain ⟨i, hi, rfl⟩ := hc
  rw [original, if_pos (Nat.le_add_right _ _), Nat.add_sub_cancel_left, hi, Option.getD_some]

theorem original_of_not_mem (h : id ∉ List.range' next olds.length) :
    original next olds id = id := by
  rw [List.mem_range'_1] at h
  rw [original]
  split
  · have hlength : olds.length ≤ id - next := by grind
    rw [List.getElem?_eq_none hlength, Option.getD_none]
  · rfl

theorem Copied.mem_new_iff (h : Copied g offset olds state) :
    new ∈ List.range' g.nextId olds.length ↔ ∃ old, (old, new) ∈ state.2 := by
  rw [← map_snd_numbered, ← h.copies_eq]
  simp

/-- The edges of the originals and those of the copies lie over the edges of the originals. -/
theorem Copied.liesOver (h : Copied g offset olds state) (hg : g.WellFormed)
    (hfresh : ∀ id ∈ g.ids, id ∉ List.range' g.nextId olds.length) :
    (g.edgeSet ⊔ CopiedEdge g state.2).LiesOver g.edgeSet (original g.nextId olds)
      (· ∈ List.range' g.nextId olds.length) where
  edge := by
    rintro p q (hpq | ⟨hpq, hx, hy⟩)
    · have hp := hfresh _ (mem_ids_of_mem_peers hpq)
      have hq := hfresh _ (hg.peer_mem_ids hpq)
      rw [original_of_not_mem hp, original_of_not_mem hq]
      exact hpq
    · change _ ∈ g.peers _
      simp only [PortRef.at, h.original_new hx, h.original_new hy]
      exact hpq
  same := by
    rintro p q (hpq | ⟨-, hx, hy⟩)
    · exact iff_of_false (hfresh _ (mem_ids_of_mem_peers hpq)) (hfresh _ (hg.peer_mem_ids hpq))
    · exact iff_of_true (h.mem_new_iff.2 ⟨_, hx⟩) (h.mem_new_iff.2 ⟨_, hy⟩)
  inj := by
    intro x y hxy he
    by_cases hx : x ∈ List.range' g.nextId olds.length
    · obtain ⟨oldx, hcx⟩ := h.mem_new_iff.1 hx
      obtain ⟨oldy, hcy⟩ := h.mem_new_iff.1 (hxy.1 hx)
      rw [h.original_new hcx, h.original_new hcy] at he
      exact h.new_eq (he ▸ hcx) hcy
    · rwa [original_of_not_mem hx, original_of_not_mem (fun hy => hx (hxy.2 hy))] at he

theorem Copied.direction?_at (h : Copied g offset olds state) {p : PortRef} {x : NodeId}
    (hx : (p.node, x) ∈ state.2) : state.1.direction? (p.at x) = g.direction? p := by
  obtain ⟨n, hn, hcopy⟩ := h.copied hx
  rw [direction?_of_node? hn, direction?_of_node? (p := p.at x) hcopy]
  exact n.direction?_mapPorts p.slot fun _ => {}

theorem Copied.joinable_at (h : Copied g offset olds state) (hg : g.WellFormed) {p q : PortRef}
    {x y : NodeId} (hpq : q ∈ g.peers p) (hx : (p.node, x) ∈ state.2) (hy : (q.node, y) ∈ state.2) :
    state.1.Joinable (p.at x) (q.at y) := by
  have hprimary : p.slot.isAux = false ∨ q.slot.isAux = false := hg.primary hpq
  refine ⟨?_, ?_, hprimary⟩
  · rw [h.direction?_at hx, h.direction?_at hy]
    exact hg.directed hpq
  · rintro (rfl : x = y)
    exact hg.node_ne hpq (h.old_eq hx hy)

/-- The edges of the copies are joined without a refusal. -/
theorem Copied.connectAll (h : Copied g offset olds state) (hg : g.WellFormed)
    (hlawful : g.edgeSet.Lawful)
    (hfresh : ∀ id ∈ g.ids, id ∉ List.range' g.nextId olds.length)
    {edges : List (PortRef × PortRef)} (hedges : edges.Perm (state.1.copiedEdges state.2)) :
    (∀ before e after, edges = before ++ e :: after →
      ((state.1.connectAll before).connect e.1 e.2).2 = true) ∧
    (state.1.connectAll edges).edgeSet = g.edgeSet ⊔ CopiedEdge g state.2 := by
  have hsame : state.1.edgeSet = g.edgeSet := by
    funext p q
    rw [edgeSet, edgeSet, h.peers]
  have hamong : EdgeSet.among edges = CopiedEdge g state.2 := by
    rw [← h.among_copiedEdges hg]
    funext p q
    simp only [EdgeSet.among, hedges.mem_iff]
  have hfit : ∀ e ∈ edges, state.1.Joinable e.1 e.2 ∧
      EdgeSet.between e.1 e.2 ≤ g.edgeSet ⊔ CopiedEdge g state.2 := by
    intro e he
    obtain ⟨p, q, x, y, hpq, -, hx, hy, rfl⟩ := h.mem_copiedEdges.1 (hedges.mem_iff.1 he)
    refine ⟨h.joinable_at hg hpq hx hy, le_trans ?_ le_sup_right⟩
    exact EdgeSet.between_le_iff.2 ⟨.mk hpq hx hy, .mk (hg.symm hpq) hy hx⟩
  have hall := h.wellFormed.connectAll_of_lawful ((h.liesOver hg hfresh).lawful hlawful)
    (hsame ▸ le_sup_left) hfit
  rwa [hsame, hamong] at hall

theorem node?_connectAll_of_ne {edges : List (PortRef × PortRef)}
    (h : ∀ e ∈ edges, id ≠ e.1.node ∧ id ≠ e.2.node) :
    (g.connectAll edges).node? id = g.node? id := by
  induction edges generalizing g with
  | nil => rfl
  | cons e edges ih =>
    obtain ⟨⟨ha, hb⟩, hrest⟩ := List.forall_mem_cons.1 h
    exact (ih hrest).trans (node?_connect_of_ne ha hb)

theorem node?_bare_connectAll (edges : List (PortRef × PortRef)) (g : Graph) (id : NodeId) :
    ((g.connectAll edges).node? id).map Node.bare = (g.node? id).map Node.bare := by
  induction edges generalizing g with
  | nil => rfl
  | cons e edges ih => exact (ih _).trans (node?_bare_connect g e.1 e.2 id)

/-! ## Duplication -/

/-- The graph with the copies of nodes but not yet with the copies of edges, and the copies. -/
def withCopies (g : Graph) (ids : List NodeId) (offset : Position) :
    Graph × List (NodeId × NodeId) := ids.foldl (copyNode offset) (g, [])

/-- The edges of the copies in the order in which they are joined. -/
def replayed (g : Graph) (ids : List NodeId) (offset : Position) : List (PortRef × PortRef) :=
  let (g, copies) := g.withCopies ids offset
  (g.copiedEdges copies).mergeSort edgeLe

theorem duplicate_eq (g : Graph) (ids : List NodeId) (offset : Position) :
    g.duplicate ids offset = ((g.withCopies ids offset).1.connectAll (g.replayed ids offset),
      (g.withCopies ids offset).2.map Prod.snd) := rfl

/-- No copied edge is at a node that was there before. -/
theorem Copied.node?_connectAll (h : Copied g offset olds state)
    (hfresh : ∀ id ∈ g.ids, id ∉ List.range' g.nextId olds.length)
    {edges : List (PortRef × PortRef)} (hedges : edges.Perm (state.1.copiedEdges state.2))
    (hid : id ∈ g.ids) : (state.1.connectAll edges).node? id = g.node? id := by
  rw [node?_connectAll_of_ne, h.kept id hid]
  intro e he
  obtain ⟨p, q, x, y, -, -, hx, hy, rfl⟩ := h.mem_copiedEdges.1 (hedges.mem_iff.1 he)
  constructor
  · rintro rfl
    exact hfresh _ hid (h.mem_new_iff.2 ⟨_, hx⟩)
  · rintro rfl
    exact hfresh _ hid (h.mem_new_iff.2 ⟨_, hy⟩)

/-- The edges at a copy are those at its original whose other ends are copied as well. -/
theorem Copied.mem_peers_new (h : Copied g offset olds state) {g' : Graph}
    (hfresh : ∀ id ∈ g.ids, id ∉ List.range' g.nextId olds.length)
    (hedges : g'.edgeSet = g.edgeSet ⊔ CopiedEdge g state.2) (hc : (old, new) ∈ state.2)
    {slot : Slot} {q : PortRef} :
    q ∈ g'.peers ⟨new, slot⟩ ↔
      ∃ r ∈ g.peers ⟨old, slot⟩, (r.node, q.node) ∈ state.2 ∧ q.slot = r.slot := by
  have hmem : q ∈ g'.peers ⟨new, slot⟩ ↔
      q ∈ g.peers ⟨new, slot⟩ ∨ CopiedEdge g state.2 ⟨new, slot⟩ q := by
    change g'.edgeSet ⟨new, slot⟩ q ↔ _
    rw [hedges]
    exact Iff.rfl
  rw [hmem]
  constructor
  · rintro (hold | hcopy)
    · exact absurd (h.mem_new_iff.2 ⟨old, hc⟩) (hfresh new (mem_ids_of_mem_peers hold))
    · generalize hp : PortRef.mk new slot = p at hcopy
      obtain ⟨hpeer, hx, hy⟩ := hcopy
      rename_i p r x y
      cases hp
      refine ⟨r, ?_, hy, rfl⟩
      rw [h.old_eq hc hx]
      exact hpeer
  · rintro ⟨r, hpeer, hy, hslot⟩
    right
    have hq : q = r.at q.node := by
      rw [PortRef.at, ← hslot]
    rw [hq]
    exact .mk hpeer hc hy

/-- Copying nodes that exist, as long as the counter has an id for each of them: they get one copy
each, in the order in which they occur first; a copy has the properties of its original and is moved
by the offset; the edges at it are the images of the edges at its original whose other ends are
copied, and none of them is refused; and the nodes that were there before stay as they are. -/
theorem Edited.duplicate_exact (h : g.Edited) (hids : ∀ id ∈ ids, id ∈ g.ids)
    (hroom : ∀ i < ids.eraseDups.length, g.Room i) (offset : Position) :
    let olds := ids.eraseDups
    let news := List.range' g.nextId olds.length
    let g' := (g.duplicate ids offset).1
    (g.duplicate ids offset).2 = news ∧
    (∀ id, id ∈ g'.ids ↔ id ∈ g.ids ∨ id ∈ news) ∧
    (∀ old new, (old, new) ∈ olds.zip news →
      ∃ n n', g.node? old = some n ∧ g'.node? new = some n' ∧ n'.layerType = n.layerType ∧
        n'.label = n.label ∧ n'.stringParams = n.stringParams ∧ n'.floatParams = n.floatParams ∧
        n'.special = n.special ∧ n'.position = n.position.move offset) ∧
    (∀ old new, (old, new) ∈ olds.zip news → ∀ slot q, q ∈ g'.peers ⟨new, slot⟩ ↔
      ∃ r ∈ g.peers ⟨old, slot⟩, (r.node, q.node) ∈ olds.zip news ∧ q.slot = r.slot) ∧
    (∀ before e after, g.replayed ids offset = before ++ e :: after →
      (((g.withCopies ids offset).1.connectAll before).connect e.1 e.2).2 = true) ∧
    ∀ id ∈ g.ids, g'.node? id = g.node? id := by
  intro olds news g'
  have hg' : g' = (g.withCopies ids offset).1.connectAll (g.replayed ids offset) := rfl
  have hcopied : Copied g offset olds (g.withCopies ids offset) := by
    have hall : (ids.filter fun i => i ∉ ([] : List NodeId)) = ids := by simp
    have hrun := (Copied.refl h.wellFormed offset).run hids (by rwa [hall])
    rwa [hall] at hrun
  have hcopies : (g.withCopies ids offset).2 = olds.zip news := hcopied.copies_eq
  have hfresh : ∀ id ∈ g.ids, id ∉ news := by
    intro id hid hmem
    obtain ⟨i, hi, rfl⟩ := List.mem_range'.1 hmem
    rw [Nat.one_mul] at hid
    exact (hroom i hi).2 hid
  have hperm : (g.replayed ids offset).Perm
      ((g.withCopies ids offset).1.copiedEdges (g.withCopies ids offset).2) :=
    List.mergeSort_perm ..
  obtain ⟨haccepted, hedges⟩ := hcopied.connectAll h.wellFormed h.lawful hfresh hperm
  have hbare := node?_bare_connectAll (g.replayed ids offset) (g.withCopies ids offset).1
  rw [← hg'] at hedges hbare
  refine ⟨?_, fun id => ?_, fun old new hc => ?_, fun old new hc slot q => ?_, haccepted,
    fun id hid => ?_⟩
  · rw [duplicate_eq, hcopied.copies_eq, map_snd_numbered]
  · rw [← hcopied.mem_ids, Graph.mem_ids, Graph.mem_ids, ← Option.isSome_map (f := Node.bare),
      hbare, Option.isSome_map]
  · obtain ⟨n, hn, hcopy⟩ := hcopied.copied (hcopies ▸ hc)
    have hnew := hbare new
    rw [hcopy, Option.map_some, Option.map_eq_some_iff] at hnew
    obtain ⟨n', hn', he⟩ := hnew
    obtain ⟨-, htype, hlabel, hposition, hstrings, hfloats, hspecial⟩ := Node.fields_of_bare_eq he
    exact ⟨n, n', hn, hn', htype, hlabel, hstrings, hfloats, hspecial, hposition⟩
  · rw [← hcopies] at hc ⊢
    exact hcopied.mem_peers_new hfresh hedges hc
  · rw [hg']
    exact hcopied.node?_connectAll hfresh hperm hid

/-- Both special nodes of `nested` copied, and the node in the inner subgraph: the wire of the inner
one is copied, the edge to node 2 is not. -/
theorem duplicate_nested :
    (nested.duplicate [3, 1, 3, 0] default).2 = [4, 5, 6] ∧
      (∀ q, q ∈ (nested.duplicate [3, 1, 3, 0] default).1.peers (.aux 5 0) ↔ q = .input 4) ∧
      (nested.duplicate [3, 1, 3, 0] default).1.node? 2 = nested.node? 2 := by
  have hids : ∀ id ∈ [3, 1, 3, 0], id ∈ nested.ids := by decide +kernel
  obtain ⟨hnews, -, -, hedges, -, hkept⟩ :=
    edited_nested.duplicate_exact hids (by decide +kernel) default
  have hpeers : nested.peers ⟨1, .aux 0⟩ = [.input 3] := by decide +kernel
  have hcopies : ([3, 1, 3, 0].eraseDups.zip (List.range' nested.nextId
      [3, 1, 3, 0].eraseDups.length)) = [(3, 4), (1, 5), (0, 6)] := by decide +kernel
  refine ⟨hnews.trans (by decide +kernel), fun q => ?_, hkept 2 (by decide +kernel)⟩
  rw [PortRef.aux, hedges 1 5 (by decide +kernel), hpeers, hcopies]
  obtain ⟨node, slot⟩ := q
  simp [PortRef.input]

end Graph

end LayerNet
