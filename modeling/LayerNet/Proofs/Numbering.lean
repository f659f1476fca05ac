import LayerNet.Proofs.Kinds

/-!
# Numbering

New nodes take their ids from a counter, which only moves forward.  This file settles for how long
that keeps ids from being used again, over whole histories of a graph (`Graph.History`), in which
ids given from outside are smaller than the largest id:

* `Step.extends` — what an edit that adds nodes does: it takes ids from the counter, one after the
  other, and leaves the nodes under other ids alone;
* `History.spent` — an id that a node has or had lies behind the counter;
* `History.fresh_iff` — the ids of new nodes are new, and no node is lost, as long as the largest id
  was not handed out.  From then on the counter stands still at it, and every new node takes the
  place of the one before.
-/

namespace LayerNet.Graph

variable {g g' : Graph} {past : List Graph} {new : List NodeId} {id : NodeId}

/-! ## The counter -/

theorem nextId_connect (g : Graph) (a b : PortRef) : (g.connect a b).1.nextId = g.nextId := by
  rcases connect_cases g a b with h | ⟨h, -⟩
  · rw [h]
  · rw [h]
    rfl

theorem nextId_disconnectAll (g : Graph) (id : NodeId) :
    (g.disconnectAll id).nextId = g.nextId :=
  disconnectAll_invariant nextId id (fun _ _ => rfl) (fun _ => rfl) g

theorem nextId_removeNode (g : Graph) (id : NodeId) : (g.removeNode id).1.nextId = g.nextId :=
  nextId_disconnectAll g id

theorem nextId_insertAs (g : Graph) (id : NodeId) (n : Node) :
    (g.insertAs id n).nextId = if id < maxId then max g.nextId (id + 1) else g.nextId := by
  have hfree : (if (g.node? id).isSome then (g.removeNode id).1 else g).nextId = g.nextId := by
    split
    · exact nextId_removeNode g id
    · rfl
  rw [← hfree]
  rfl

/-- The counter after a new node: the next id, if there is one. -/
theorem nextId_addNode (h : g.nextId ≤ maxId) (n : Node) :
    (g.addNode n).1.nextId = min (g.nextId + 1) maxId := by
  rw [addNode, nextId_insertAs]
  split <;> grind

/-! ## What edits do to the nodes -/

theorem mem_ids_insertAs {i : NodeId} (n : Node) :
    i ∈ (g.insertAs id n).ids ↔ i = id ∨ i ∈ g.ids := by
  rw [mem_ids_iff_kind?, kind?_insertAs, mem_ids_iff_kind?]
  split
  · rename_i h
    simp [h]
  · rename_i h
    simp [h]

theorem mem_ids_removeNode {i : NodeId} : i ∈ (g.removeNode id).1.ids ↔ i ≠ id ∧ i ∈ g.ids := by
  rw [mem_ids_iff_kind?, kind?_removeNode, mem_ids_iff_kind?]
  split
  · rename_i h
    simp [h]
  · rename_i h
    simp [h]

/-- A change that keeps kinds adds and removes no nodes. -/
theorem ids_congr (h : ∀ i, g'.kind? i = g.kind? i) : id ∈ g'.ids ↔ id ∈ g.ids := by
  rw [mem_ids_iff_kind?, h, mem_ids_iff_kind?]

/-- A node put under a new id leaves the nodes under other ids alone. -/
theorem node?_insertAs_of_not_mem {i : NodeId} (hid : id ∉ g.ids) (hi : i ≠ id) (n : Node) :
    (g.insertAs id n).node? i = g.node? i := by
  rw [mem_ids] at hid
  rw [node?_insertAs, if_neg hi, if_neg hid]

/-- A connection is seen at the two nodes that it joins. -/
theorem node?_connect_of_ne {a b : PortRef} {i : NodeId} (ha : i ≠ a.node) (hb : i ≠ b.node) :
    (g.connect a b).1.node? i = g.node? i := by
  rcases connect_cases g a b with h | ⟨h, -⟩
  · rw [h]
  · rw [h, link, modifyPort, node?_modifyNode, if_neg hb, modifyPort, node?_modifyNode, if_neg ha]

/-! ## Adding nodes -/

/-- The ids that a counter hands out; at the largest id it stands still. -/
def allotted (next : NodeId) (count : Nat) : List NodeId :=
  (List.range count).map fun i => min (next + i) maxId

@[simp] theorem length_allotted (next : NodeId) (count : Nat) :
    (allotted next count).length = count := by
  simp [allotted]

theorem mem_allotted {next count : Nat} :
    id ∈ allotted next count ↔ ∃ i < count, min (next + i) maxId = id := by
  simp [allotted]

theorem allotted_add {next : NodeId} (m n : Nat) :
    allotted next (m + n) = allotted next m ++ allotted (min (next + m) maxId) n := by
  unfold allotted
  rw [List.range_add, List.map_append, List.map_map]
  congr 1
  refine List.map_congr_left fun i _ => ?_
  show min (next + (m + i)) maxId = min (min (next + m) maxId + i) maxId
  grind

/-- The ids are different as long as the counter moves. -/
theorem nodup_allotted_iff {next count : Nat} (hnext : next ≤ maxId) :
    (allotted next count).Nodup ↔ next + count ≤ maxId + 1 ∨ count = 0 := by
  unfold allotted
  constructor
  · intro h
    by_contra hc
    -- the last two ids would both be the largest one
    obtain ⟨k, rfl⟩ : ∃ k, count = k + 2 := ⟨count - 2, by grind⟩
    have hlast : min (next + k) maxId = min (next + (k + 1)) maxId := by grind
    have heq := List.inj_on_of_nodup_map h (List.mem_range.2 (by omega))
      (List.mem_range.2 (by omega)) hlast
    exact absurd heq (Nat.ne_of_lt k.lt_succ_self)
  · intro h
    refine List.Nodup.map_on ?_ List.nodup_range
    intro i hi j hj hij
    rw [List.mem_range] at hi hj
    grind

/-- New nodes under the ids `new` have been put into a graph: the ids come from the counter, there
are no other new nodes, and if the ids are new and different, the nodes before are as they were. -/
structure Extends (g g' : Graph) (new : List NodeId) : Prop where
  new_eq : new = allotted g.nextId new.length
  nextId_eq : g'.nextId = min (g.nextId + new.length) maxId
  mem_ids : ∀ {id}, id ∈ g'.ids ↔ id ∈ g.ids ∨ id ∈ new
  kept : new.Nodup → (∀ id ∈ new, id ∉ g.ids) → ∀ id ∈ g.ids, g'.node? id = g.node? id

theorem Extends.refl (h : g.nextId ≤ maxId) : g.Extends g [] where
  new_eq := rfl
  nextId_eq := by rw [List.length_nil, Nat.add_zero, Nat.min_eq_left h]
  mem_ids := by simp
  kept _ _ _ _ := rfl

theorem Extends.addNode (h : g.nextId ≤ maxId) (n : Node) :
    g.Extends (g.addNode n).1 [g.nextId] where
  new_eq := by simp [allotted, h]
  nextId_eq := nextId_addNode h n
  mem_ids := by
    intro id
    rw [Graph.addNode, mem_ids_insertAs, List.mem_singleton, or_comm]
  kept _ hnew id hid := by
    have hfresh := hnew g.nextId List.mem_cons_self
    exact node?_insertAs_of_not_mem hfresh (fun e => hfresh (e ▸ hid)) n

theorem Extends.trans {g'' : Graph} {new' : List NodeId} (h : g.Extends g' new)
    (h' : g'.Extends g'' new') : g.Extends g'' (new ++ new') where
  new_eq := by
    rw [List.length_append, allotted_add, ← h.new_eq, ← h.nextId_eq, ← h'.new_eq]
  nextId_eq := by
    rw [h'.nextId_eq, h.nextId_eq, List.length_append]
    grind
  mem_ids := by
    intro id
    rw [h'.mem_ids, h.mem_ids, List.mem_append, or_assoc]
  kept hnodup hnew id hid := by
    obtain ⟨hn, hn', hdisjoint⟩ := List.nodup_append'.1 hnodup
    rw [h'.kept hn' ?_ id (h.mem_ids.2 (.inl hid)),
      h.kept hn (fun i hi => hnew i (List.mem_append_left _ hi)) id hid]
    intro i hi hmem
    rcases h.mem_ids.1 hmem with hold | hearlier
    · exact hnew i (List.mem_append_right _ hi) hold
    · exact hdisjoint hearlier hi

/-- Edges among the new nodes change nothing for the others. -/
theorem Extends.connect (h : g.Extends g' new) {a b : PortRef} (ha : a.node ∈ new)
    (hb : b.node ∈ new) : g.Extends (g'.connect a b).1 new where
  new_eq := h.new_eq
  nextId_eq := by rw [nextId_connect, h.nextId_eq]
  mem_ids := by
    intro id
    rw [ids_congr (kind?_connect g' a b), h.mem_ids]
  kept hnodup hnew id hid := by
    have hne : ∀ p : PortRef, p.node ∈ new → id ≠ p.node := fun p hp e => hnew _ hp (e ▸ hid)
    rw [node?_connect_of_ne (hne a ha) (hne b hb), h.kept hnodup hnew id hid]

theorem Extends.nextId_le (h : g.Extends g' new) : g'.nextId ≤ maxId := by
  rw [h.nextId_eq]
  exact Nat.min_le_right ..

/-! ## Copies -/

theorem Extends.copyNode (h : g.nextId ≤ maxId) (offset : Position)
    (copies : List (NodeId × NodeId)) (id : NodeId) :
    ∃ added, (Graph.copyNode offset (g, copies) id).2 = copies ++ added ∧
      g.Extends (Graph.copyNode offset (g, copies) id).1 (added.map Prod.snd) := by
  have hskip : ∃ added, copies = copies ++ added ∧ g.Extends g (added.map Prod.snd) :=
    ⟨[], (List.append_nil _).symm, .refl h⟩
  unfold Graph.copyNode
  dsimp only
  by_cases hcopied : (copies.lookup id).isSome = true
  · rw [if_pos hcopied]
    exact hskip
  · rw [if_neg hcopied]
    cases g.node? id with
    | none => exact hskip
    | some n => exact ⟨[(id, g.nextId)], rfl, .addNode h _⟩

theorem Extends.copyNodes (ids : List NodeId) (offset : Position) (h : g.nextId ≤ maxId)
    (copies : List (NodeId × NodeId)) :
    ∃ added, (ids.foldl (Graph.copyNode offset) (g, copies)).2 = copies ++ added ∧
      g.Extends (ids.foldl (Graph.copyNode offset) (g, copies)).1 (added.map Prod.snd) := by
  induction ids generalizing g copies with
  | nil => exact ⟨[], (List.append_nil _).symm, .refl h⟩
  | cons id ids ih =>
    obtain ⟨first, hfirst, hext⟩ := Extends.copyNode h offset copies id
    obtain ⟨rest, hrest, hext'⟩ :=
      ih hext.nextId_le (Graph.copyNode offset (g, copies) id).2
    refine ⟨first ++ rest, ?_, ?_⟩
    · rw [List.foldl_cons, ← List.append_assoc, ← hfirst]
      exact hrest
    · rw [List.map_append]
      exact hext.trans hext'

theorem mem_of_lookup {copies : List (NodeId × NodeId)} {old copy : NodeId}
    (h : copies.lookup old = some copy) : (old, copy) ∈ copies := by
  obtain ⟨before, after, rfl, -⟩ := List.lookup_eq_some_iff.1 h
  exact List.mem_append_right before List.mem_cons_self

/-- Copied edges join copies. -/
theorem mem_of_mem_copiedEdges {copies : List (NodeId × NodeId)} {edge : PortRef × PortRef}
    (h : edge ∈ g.copiedEdges copies) :
    edge.1.node ∈ copies.map Prod.snd ∧ edge.2.node ∈ copies.map Prod.snd := by
  obtain ⟨⟨old, new⟩, hcopy, hedge⟩ := List.mem_flatMap.1 h
  dsimp only at hedge
  split at hedge
  · exact absurd hedge List.not_mem_nil
  · obtain ⟨⟨slot, port⟩, -, hedge⟩ := List.mem_flatMap.1 hedge
    obtain ⟨peer, -, hpeer⟩ := List.mem_filterMap.1 hedge
    obtain ⟨peerNew, hlookup, rfl⟩ := Option.map_eq_some_iff.1 hpeer
    exact ⟨List.mem_map_of_mem hcopy, List.mem_map_of_mem (mem_of_lookup hlookup)⟩

theorem Extends.connects {edges : List (PortRef × PortRef)} (h : g.Extends g' new)
    (hedges : ∀ edge ∈ edges, edge.1.node ∈ new ∧ edge.2.node ∈ new) :
    g.Extends (edges.foldl (fun g edge => (g.connect edge.1 edge.2).1) g') new := by
  induction edges generalizing g' with
  | nil => exact h
  | cons edge rest ih =>
    obtain ⟨ha, hb⟩ := hedges edge List.mem_cons_self
    exact ih (h.connect ha hb) fun e he => hedges e (List.mem_cons_of_mem edge he)

theorem Extends.duplicate (h : g.nextId ≤ maxId) (ids : List NodeId) (offset : Position) :
    g.Extends (g.duplicate ids offset).1 (g.duplicate ids offset).2 := by
  obtain ⟨added, hadded, hext⟩ := Extends.copyNodes ids offset h []
  rw [List.nil_append] at hadded
  rw [← hadded] at hext
  refine hext.connects fun edge hedge => mem_of_mem_copiedEdges (List.mem_mergeSort.1 hedge)

/-! ## Histories -/

/-- An edit of a graph, with the graph after it and the ids that it hands out to new nodes.  A node
may be put under any id but the largest. -/
inductive Step (g : Graph) : Graph → List NodeId → Prop
  | createNode (layerType : String) (position : Position) :
    Step g (g.createNode layerType position).1 [(g.createNode layerType position).2]
  | addNode (n : Node) : Step g (g.addNode n).1 [(g.addNode n).2]
  | duplicate (ids : List NodeId) (offset : Position) :
    Step g (g.duplicate ids offset).1 (g.duplicate ids offset).2
  | insertAs (id : NodeId) (n : Node) (h : id < maxId) : Step g (g.insertAs id n) []
  | removeNode (id : NodeId) : Step g (g.removeNode id).1 []
  | connect (a b : PortRef) : Step g (g.connect a b).1 []
  | disconnect (a b : PortRef) : Step g (g.disconnect a b) []
  | disconnectAll (id : NodeId) : Step g (g.disconnectAll id) []
  | setHighlighted (p : PortRef) (highlighted : Bool) : Step g (g.setHighlighted p highlighted) []
  | editNode (id : NodeId) (e : NodeEdit) : Step g (g.editNode id e) []

/-- A graph with the graphs that it was before, the last one first. -/
inductive History : Graph → List Graph → Prop
  | empty (catalog : Catalog) : History { catalog } []
  | step {g g' : Graph} {past : List Graph} {new : List NodeId} :
    History g past → g.Step g' new → History g' (g :: past)

/-- The counter has passed an id, or it has stopped at it. -/
def Spent (g : Graph) (id : NodeId) : Prop := id < g.nextId ∨ id = maxId ∧ g.nextId = maxId

theorem Step.extends (step : g.Step g' new) (hnew : new ≠ []) (h : g.nextId ≤ maxId) :
    g.Extends g' new := by
  cases step with
  | createNode layerType position => exact .addNode h _
  | addNode n => exact .addNode h n
  | duplicate ids offset => exact .duplicate h ids offset
  | insertAs | removeNode | connect | disconnect | disconnectAll | setHighlighted | editNode =>
    exact absurd rfl hnew

/-- The counter moves forward only, within its bounds, and past the ids of all nodes that are new. -/
structure Advances (g g' : Graph) : Prop where
  le : g.nextId ≤ g'.nextId
  le_max : g'.nextId ≤ maxId
  passed : ∀ id ∈ g'.ids, id ∈ g.ids ∨ g'.Spent id

theorem Spent.mono (hid : g.Spent id) (h : g.Advances g') : g'.Spent id := by
  rcases hid with hlt | ⟨rfl, hnext⟩
  · exact .inl (Nat.lt_of_lt_of_le hlt h.le)
  · exact .inr ⟨rfl, Nat.le_antisymm h.le_max (hnext ▸ h.le)⟩

theorem Extends.advances (h : g.Extends g' new) (hmax : g.nextId ≤ maxId) : g.Advances g' where
  le := by
    rw [h.nextId_eq]
    grind
  le_max := h.nextId_le
  passed id hid := by
    rcases h.mem_ids.1 hid with hid | hid
    · exact .inl hid
    · right
      have hnext := h.nextId_eq
      rw [h.new_eq] at hid
      obtain ⟨i, hi, rfl⟩ := mem_allotted.1 hid
      show min (g.nextId + i) maxId < g'.nextId ∨
        min (g.nextId + i) maxId = maxId ∧ g'.nextId = maxId
      grind

/-- An edit that leaves the counter alone advances it if it adds no node. -/
theorem advances_of_subset (hmax : g.nextId ≤ maxId) (hnext : g'.nextId = g.nextId)
    (hids : ∀ id ∈ g'.ids, id ∈ g.ids) : g.Advances g' :=
  ⟨Nat.le_of_eq hnext.symm, hnext ▸ hmax, fun id hid => .inl (hids id hid)⟩

theorem advances_insertAs (hmax : g.nextId ≤ maxId) (hid : id < maxId) (n : Node) :
    g.Advances (g.insertAs id n) := by
  have hnext := nextId_insertAs g id n
  rw [if_pos hid] at hnext
  refine ⟨by grind, by grind, fun i hi => ?_⟩
  rcases (mem_ids_insertAs n).1 hi with rfl | hi
  · exact .inr (.inl (by grind))
  · exact .inl hi

theorem Step.advances (step : g.Step g' new) (hmax : g.nextId ≤ maxId) : g.Advances g' := by
  cases step with
  | createNode layerType position => exact (Extends.addNode hmax _).advances hmax
  | addNode n => exact (Extends.addNode hmax n).advances hmax
  | duplicate ids offset => exact (Extends.duplicate hmax ids offset).advances hmax
  | insertAs id n hid => exact advances_insertAs hmax hid n
  | removeNode id =>
    exact advances_of_subset hmax (nextId_removeNode g id) fun i hi => (mem_ids_removeNode.1 hi).2
  | connect a b =>
    exact advances_of_subset hmax (nextId_connect g a b) fun i =>
      (ids_congr (kind?_connect g a b)).1
  | disconnect a b =>
    exact advances_of_subset hmax rfl fun i => (ids_congr (kind?_disconnect g a b)).1
  | disconnectAll id =>
    exact advances_of_subset hmax (nextId_disconnectAll g id) fun i =>
      (ids_congr (kind?_disconnectAll g id)).1
  | setHighlighted p highlighted =>
    exact advances_of_subset hmax rfl fun i => (ids_congr (kind?_modifyPort g p _)).1
  | editNode id e =>
    refine advances_of_subset hmax rfl fun i hi => ?_
    have hnode : (g.editNode id e).node? i =
        if i = id then (g.node? i).map e.apply else g.node? i := node?_modifyNode ..
    rw [mem_ids, hnode] at hi
    rw [mem_ids]
    split at hi
    · rwa [Option.isSome_map] at hi
    · exact hi

theorem History.nextId_le (h : History g past) : g.nextId ≤ maxId := by
  induction h with
  | empty catalog => exact Nat.zero_le _
  | step _ step ih => exact (step.advances ih).le_max

/-- Every id that a node has, or had at any earlier time, lies behind the counter. -/
theorem History.spent (h : History g past) : ∀ old ∈ g :: past, ∀ id ∈ old.ids, g.Spent id := by
  induction h with
  | empty catalog =>
    intro old hold id hid
    obtain rfl := List.mem_singleton.1 hold
    exact absurd hid List.not_mem_nil
  | @step g g' past new h step ih =>
    have hadv := step.advances h.nextId_le
    have hearlier : ∀ old ∈ g :: past, ∀ id ∈ old.ids, g'.Spent id := by
      intro old hold id hid
      exact (ih old hold id hid).mono hadv
    intro old hold id hid
    rcases List.mem_cons.1 hold with rfl | hold
    · rcases hadv.passed id hid with hid | hspent
      · exact hearlier g List.mem_cons_self id hid
      · exact hspent
    · exact hearlier old hold id hid

/-! ## How long ids stay new -/

/-- What is promised of the ids handed out by an edit: they are different, no node had one of them
at any time, and all earlier nodes are left as they are. -/
structure Fresh (g : Graph) (past : List Graph) (g' : Graph) (new : List NodeId) : Prop where
  nodup : new.Nodup
  unused : ∀ id ∈ new, ∀ old ∈ g :: past, id ∉ old.ids
  kept : ∀ id ∈ g.ids, g'.node? id = g.node? id

/-- As long as no node had the largest id, the ids before it are new. -/
theorem History.unused (h : History g past) (hmax : ∀ old ∈ g :: past, maxId ∉ old.ids)
    (hid : g.nextId ≤ id) : ∀ old ∈ g :: past, id ∉ old.ids := by
  intro old hold hmem
  rcases h.spent old hold id hmem with hlt | ⟨rfl, -⟩
  · exact absurd hid (Nat.not_le_of_lt hlt)
  · exact hmax old hold hmem

/-- The ids of new nodes are new, and no node is lost, exactly as long as the largest id has not
been handed out before and suffices for the last of them.  The new nodes are there in any case. -/
theorem History.fresh_iff (h : History g past) (step : g.Step g' new) (hnew : new ≠ []) :
    (∀ id ∈ new, id ∈ g'.ids) ∧
      (Fresh g past g' new ↔
        (∀ old ∈ g :: past, maxId ∉ old.ids) ∧ g.nextId + new.length ≤ maxId + 1) := by
  have hext := step.extends hnew h.nextId_le
  have hlength : new.length ≠ 0 := fun e => hnew (List.length_eq_zero_iff.1 e)
  have hnodup : new.Nodup ↔ g.nextId + new.length ≤ maxId + 1 := by
    rw [hext.new_eq, nodup_allotted_iff h.nextId_le, length_allotted, or_iff_left hlength]
  refine ⟨fun id hid => hext.mem_ids.2 (.inr hid), ?_, ?_⟩
  · intro hfresh
    refine ⟨fun old hold hmem => ?_, hnodup.1 hfresh.nodup⟩
    -- the counter stands at the largest id, which is handed out again
    have hstop : g.nextId = maxId := by
      rcases h.spent old hold maxId hmem with hlt | ⟨-, hstop⟩
      · exact absurd h.nextId_le (Nat.not_le_of_lt hlt)
      · exact hstop
    have hagain : maxId ∈ new := by
      rw [hext.new_eq]
      exact mem_allotted.2 ⟨0, Nat.pos_of_ne_zero hlength, by grind⟩
    exact hfresh.unused maxId hagain old hold hmem
  · rintro ⟨hmax, hroom⟩
    have hunused : ∀ id ∈ new, ∀ old ∈ g :: past, id ∉ old.ids := by
      intro id hid
      rw [hext.new_eq] at hid
      obtain ⟨i, hi, rfl⟩ := mem_allotted.1 hid
      exact h.unused hmax (by grind)
    exact ⟨hnodup.2 hroom, hunused,
      hext.kept (hnodup.2 hroom) fun id hid => hunused id hid g List.mem_cons_self⟩

/-- A node under the last id but one. -/
def nearlyFull : Graph :=
  ({} : Graph).insertAs (maxId - 1) (.new (maxId - 1) "LayerDense" none default)

/-- The graph with a node created under the last id. -/
def full : Graph := (nearlyFull.createNode "LayerDense" default).1

theorem history_nearlyFull : History nearlyFull [{}] :=
  .step (.empty Catalog.builtin) (.insertAs (maxId - 1) _ (by decide))

theorem history_full : History full [nearlyFull, {}] :=
  .step history_nearlyFull (.createNode "LayerDense" default)

/-- The last id is new, and it is not when the next node is created. -/
theorem fresh_nearlyFull :
    Fresh nearlyFull [{}] full [maxId] ∧
      ¬Fresh full [nearlyFull, {}] (full.createNode "LayerActivation" default).1 [maxId] := by
  constructor
  · refine (history_nearlyFull.fresh_iff (.createNode "LayerDense" default) (by decide)).2.2 ?_
    decide +kernel
  · intro h
    have hnot := (history_full.fresh_iff (.createNode "LayerActivation" default) (by decide)).2.1 h
    revert hnot
    decide +kernel

end LayerNet.Graph
