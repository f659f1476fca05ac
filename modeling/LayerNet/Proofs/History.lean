import LayerNet.Proofs.Edges

/-!
# What editing keeps

`Graph.Edited` holds of the graphs that any sequence of edits leads to, starting from an empty graph
with any catalog.  Two invariants hold in all of them:

* `Edited.wellFormed` — every edge is kept on both sides, and `Edited.edges_two_sided` says what this
  means for each port;
* `Edited.acyclic` — the primary edges form no cycle.

Making a connection is the only edit that adds an edge, and `canConnect_eq_ok_iff` says what it asks
for.  A search over the edges as they are decides whether the new one would close a cycle; that this
search is exact is `reaches_iff`.
-/

namespace LayerNet.Graph

open Relation

variable {g g' : Graph} {a b p q : PortRef} {output input : PortRef} {id : NodeId}

/-! ## When two ports may be joined -/

theorem canJoin_eq_ok_iff :
    g.canJoin output input = .ok () ↔
      (output.slot.isAux = false ∨ input.slot.isAux = false) ∧
        g.subgraphConflict? output input = none ∧
        ¬(output.slot.isPrimary = true ∧ input.slot.isPrimary = true ∧
          g.reaches input.node output.node = true) := by
  unfold canJoin
  split
  · rename_i h
    simp only [Bool.and_eq_true] at h
    simp [h.1, h.2]
  · rename_i h
    have haux : output.slot.isAux = false ∨ input.slot.isAux = false := by
      simpa [Bool.and_eq_true, imp_iff_not_or] using h
    split
    · rename_i conflict hc
      simp [hc]
    · rename_i hc
      split
      · rename_i hr
        simp only [Bool.and_eq_true] at hr
        simp [hr]
      · rename_i hr
        simp only [Bool.and_eq_true] at hr
        simp only [haux, hc, true_and, true_iff]
        exact fun h => hr ⟨⟨h.1, h.2.1⟩, h.2.2⟩

/-- Two ports may be joined if they exist at different nodes, point in different directions, and are
joined already or pass the rules for a new edge. -/
theorem canConnect_eq_ok_iff :
    g.canConnect a b = .ok () ↔
      ∃ da db, g.direction? a = some da ∧ g.direction? b = some db ∧ a.node ≠ b.node ∧ da ≠ db ∧
        (g.isConnected a b = true ∨
          if da = .output then g.canJoin a b = .ok () else g.canJoin b a = .ok ()) := by
  unfold canConnect
  cases ha : g.direction? a with
  | none => simp
  | some da =>
    cases hb : g.direction? b with
    | none => simp
    | some db =>
      by_cases hab : a = b
      · simp [hab]
      · by_cases hnode : a.node = b.node
        · simp [hab, hnode]
        · by_cases hd : da = db
          · simp [hab, hnode, hd]
          · by_cases hc : g.isConnected a b = true
            · simp [hab, hnode, hd, hc]
            · simp only [if_neg hab, if_neg hnode, if_neg hd, hc]
              by_cases ho : da = .output
              · subst ho
                simp [hnode, hd]
              · simp [hnode, hd, ho]

/-- Ports that are joined already may be joined again. -/
theorem WellFormed.canConnect_of_mem (hg : g.WellFormed) (hab : b ∈ g.peers a) :
    g.canConnect a b = .ok () := by
  obtain ⟨d, ha, hb⟩ := hg.directed hab
  refine canConnect_eq_ok_iff.2 ⟨d, d.opposite, ha, hb, hg.node_ne hab, ?_, ?_⟩
  · cases d <;> simp [Direction.opposite]
  · exact Or.inl (isConnected_iff.2 hab)

theorem Direction.eq_opposite {d e : Direction} (h : d ≠ e) : e = d.opposite := by
  cases d <;> cases e <;> first | rfl | exact absurd rfl h

theorem direction?_input {v : NodeId} {d : Direction} (h : g.direction? (.input v) = some d) :
    d = .input := by
  obtain ⟨n, -, hn⟩ := Option.bind_eq_some_iff.1 h
  exact (Option.some.inj hn).symm

theorem direction?_output {v : NodeId} {d : Direction} (h : g.direction? (.output v) = some d) :
    d = .output := by
  obtain ⟨n, -, hn⟩ := Option.bind_eq_some_iff.1 h
  exact (Option.some.inj hn).symm

/-- A new edge that passes the rules: its ports may be joined, and if it is a primary edge its end
does not lead back to its start. -/
structure Admitted (g : Graph) (a b : PortRef) : Prop where
  joinable : g.Joinable a b
  forward : ∀ u v, a = .output u → b = .input v → ¬ReflTransGen g.Flows v u
  backward : ∀ u v, b = .output u → a = .input v → ¬ReflTransGen g.Flows v u

theorem admitted_of_canConnect (h : g.canConnect a b = .ok ()) (hab : g.isConnected a b = false) :
    g.Admitted a b := by
  obtain ⟨da, db, ha, hb, hnode, hd, hrules⟩ := canConnect_eq_ok_iff.1 h
  rw [hab] at hrules
  have hdirected : ∃ d, g.direction? a = some d ∧ g.direction? b = some d.opposite :=
    ⟨da, ha, by rw [hb, Direction.eq_opposite hd]⟩
  by_cases ho : da = .output
  · simp only [Bool.false_eq_true, ho, if_true, false_or] at hrules
    obtain ⟨haux, -, hcycle⟩ := canJoin_eq_ok_iff.1 hrules
    refine ⟨⟨hdirected, hnode, haux⟩, ?_, ?_⟩
    · rintro u v rfl rfl hvu
      exact hcycle ⟨rfl, rfl, reaches_iff.2 hvu⟩
    · rintro u v rfl rfl -
      exact absurd (ho.symm.trans (direction?_input ha)) (by decide)
  · simp only [Bool.false_eq_true, ho, if_false, false_or] at hrules
    obtain ⟨haux, -, hcycle⟩ := canJoin_eq_ok_iff.1 hrules
    refine ⟨⟨hdirected, hnode, haux.symm⟩, ?_, ?_⟩
    · rintro u v rfl rfl -
      exact ho (direction?_output ha)
    · rintro u v rfl rfl hvu
      exact hcycle ⟨rfl, rfl, reaches_iff.2 hvu⟩

/-! ## The effect of a connection -/

theorem connect_eq_of_error {e : ConnectError} (h : g.canConnect a b = .error e) :
    g.connect a b = (g, false) := by
  unfold connect
  rw [h]

theorem connect_eq_of_ok (h : g.canConnect a b = .ok ()) :
    g.connect a b = (if g.isConnected a b then g else g.link a b, true) := by
  unfold connect
  rw [h]

/-- A connection leaves the graph alone or links two ports that pass the rules. -/
theorem connect_cases (g : Graph) (a b : PortRef) :
    (g.connect a b).1 = g ∨
      (g.connect a b).1 = g.link a b ∧ g.Admitted a b ∧ b ∉ g.peers a := by
  cases h : g.canConnect a b with
  | error e =>
    rw [connect_eq_of_error h]
    exact Or.inl rfl
  | ok _ =>
    rw [connect_eq_of_ok h]
    by_cases hab : b ∈ g.peers a
    · rw [if_pos (isConnected_iff.2 hab)]
      exact Or.inl rfl
    · have hnew := isConnected_eq_false_iff.2 hab
      rw [hnew]
      exact Or.inr ⟨rfl, admitted_of_canConnect h hnew, hab⟩

theorem WellFormed.connect (hg : g.WellFormed) (a b : PortRef) : (g.connect a b).1.WellFormed := by
  rcases connect_cases g a b with e | ⟨e, hadm, hab⟩
  · rwa [e]
  · rw [e]
    exact hg.link hadm.joinable hab

/-- The primary edges after joining two ports. -/
theorem Joinable.flows_link (h : g.Joinable a b) {u v : NodeId} :
    (g.link a b).Flows u v ↔
      g.Flows u v ∨ a = .output u ∧ b = .input v ∨ b = .output u ∧ a = .input v := by
  rw [flows_iff, h.mem_peers_link, flows_iff]
  simp only [eq_comm]

theorem Acyclic.connect (hacyclic : g.Acyclic) (a b : PortRef) :
    (g.connect a b).1.Acyclic := by
  rcases connect_cases g a b with e | ⟨e, hadm, -⟩
  · rwa [e]
  · rw [e]
    have hflows {u v} := hadm.joinable.flows_link (u := u) (v := v)
    -- at most one way round the new edge is a primary one
    by_cases hab' : ∃ u v, a = .output u ∧ b = .input v
    · obtain ⟨u, v, rfl, rfl⟩ := hab'
      refine hacyclic.of_edge (hadm.forward u v rfl rfl) ?_
      intro x y hxy
      rcases hflows.1 hxy with hxy | ⟨hx, hy⟩ | ⟨hx, -⟩
      · exact Or.inl hxy
      · cases hx
        cases hy
        exact Or.inr ⟨rfl, rfl⟩
      · simp [PortRef.input, PortRef.output] at hx
    · by_cases hba' : ∃ u v, b = .output u ∧ a = .input v
      · obtain ⟨u, v, rfl, rfl⟩ := hba'
        refine hacyclic.of_edge (hadm.backward u v rfl rfl) ?_
        intro x y hxy
        rcases hflows.1 hxy with hxy | ⟨hx, -⟩ | ⟨hx, hy⟩
        · exact Or.inl hxy
        · simp [PortRef.input, PortRef.output] at hx
        · cases hx
          cases hy
          exact Or.inr ⟨rfl, rfl⟩
      · refine hacyclic.mono ?_
        intro x y hxy
        rcases hflows.1 hxy with hxy | hxy | hxy
        · exact hxy
        · exact absurd ⟨x, y, hxy⟩ hab'
        · exact absurd ⟨x, y, hxy⟩ hba'

/-- Fewer peers form no new cycles. -/
theorem Acyclic.of_subset (hg : g.Acyclic) (h : ∀ p, g'.peers p ⊆ g.peers p) : g'.Acyclic :=
  hg.mono fun a b hab => by
    rw [flows_iff] at hab ⊢
    exact h _ hab

/-! ## Histories -/

/-- The invariant of edited graphs. -/
structure Valid (g : Graph) : Prop where
  wellFormed : g.WellFormed
  acyclic : g.Acyclic

theorem Valid.connect (hg : g.Valid) (a b : PortRef) : (g.connect a b).1.Valid :=
  ⟨hg.wellFormed.connect a b, hg.acyclic.connect a b⟩

theorem Valid.insertAs (hg : g.Valid) (id : NodeId) (n : Node) : (g.insertAs id n).Valid :=
  ⟨hg.wellFormed.insertAs id n, hg.acyclic.of_subset fun p => by
    rw [hg.wellFormed.peers_insertAs]
    exact (peersWithout_sublist g id p).subset⟩

theorem Valid.removeNode (hg : g.Valid) (id : NodeId) : (g.removeNode id).1.Valid :=
  ⟨hg.wellFormed.removeNode id, hg.acyclic.of_subset fun p => by
    rw [hg.wellFormed.peers_removeNode]
    exact (peersWithout_sublist g id p).subset⟩

theorem Valid.disconnectAll (hg : g.Valid) (id : NodeId) : (g.disconnectAll id).Valid :=
  ⟨hg.wellFormed.disconnectAll id, hg.acyclic.of_subset fun p => by
    rw [hg.wellFormed.peers_disconnectAll]
    exact (peersWithout_sublist g id p).subset⟩

theorem Valid.disconnect (hg : g.Valid) (a b : PortRef) : (g.disconnect a b).Valid :=
  ⟨hg.wellFormed.unlink a b, hg.acyclic.of_subset fun p => (peers_unlink_sublist g a b p).subset⟩

/-- A change that leaves edges and directions alone keeps the invariant. -/
theorem Valid.congr (hg : g.Valid) (hpeers : ∀ p, g'.peers p = g.peers p)
    (hdir : ∀ p, g'.direction? p = g.direction? p) : g'.Valid :=
  ⟨hg.wellFormed.congr hpeers hdir, hg.acyclic.of_subset fun p => by rw [hpeers]; exact fun _ => id⟩

theorem valid_empty (catalog : Catalog) : Valid { catalog } := by
  have hpeers : ∀ p, Graph.peers { catalog } p = [] := fun _ => rfl
  refine ⟨wellFormed_of_peers_nil hpeers, fun a ha => ?_⟩
  obtain ⟨b, hab, -⟩ := TransGen.head'_iff.1 ha
  rw [flows_iff, hpeers] at hab
  exact absurd hab List.not_mem_nil

/-- Copying nodes is a sequence of insertions and connections. -/
theorem duplicate_induction {motive : Graph → Prop}
    (insertAs : ∀ g id n, motive g → motive (g.insertAs id n))
    (connect : ∀ g a b, motive g → motive (g.connect a b).1) (ids : List NodeId)
    (offset : Position) (hg : motive g) : motive (g.duplicate ids offset).1 := by
  have hcopies : ∀ (ids : List NodeId) (state : Graph × List (NodeId × NodeId)), motive state.1 →
      motive (ids.foldl (copyNode offset) state).1 := by
    intro ids
    induction ids with
    | nil => exact fun _ h => h
    | cons id ids ih =>
      intro state h
      refine ih _ ?_
      rw [copyNode]
      split
      · exact h
      · split
        · exact h
        · exact insertAs _ _ _ h
  have hedges : ∀ (edges : List (PortRef × PortRef)) (g : Graph), motive g →
      motive (edges.foldl (fun g e => (g.connect e.1 e.2).1) g) := by
    intro edges
    induction edges with
    | nil => exact fun _ h => h
    | cons e edges ih => exact fun g h => ih _ (connect _ _ _ h)
  exact hedges _ _ (hcopies ids (g, []) hg)

theorem Valid.duplicate (hg : g.Valid) (ids : List NodeId) (offset : Position) :
    (g.duplicate ids offset).1.Valid :=
  duplicate_induction (fun _ id n h => h.insertAs id n) (fun _ a b h => h.connect a b) ids offset hg

/-- The graphs that any sequence of edits leads to. -/
inductive Edited : Graph → Prop
  /-- No nodes yet, and any layer types. -/
  | empty (catalog : Catalog) : Edited { catalog }
  | createNode {g : Graph} (layerType : String) (position : Position) :
    Edited g → Edited (g.createNode layerType position).1
  /-- The node may be new or a copy from any graph, with its edges. -/
  | addNode {g : Graph} (n : Node) : Edited g → Edited (g.addNode n).1
  | insertAs {g : Graph} (id : NodeId) (n : Node) : Edited g → Edited (g.insertAs id n)
  | removeNode {g : Graph} (id : NodeId) : Edited g → Edited (g.removeNode id).1
  | connect {g : Graph} (a b : PortRef) : Edited g → Edited (g.connect a b).1
  | disconnect {g : Graph} (a b : PortRef) : Edited g → Edited (g.disconnect a b)
  | disconnectAll {g : Graph} (id : NodeId) : Edited g → Edited (g.disconnectAll id)
  | setHighlighted {g : Graph} (p : PortRef) (highlighted : Bool) :
    Edited g → Edited (g.setHighlighted p highlighted)
  | editNode {g : Graph} (id : NodeId) (e : NodeEdit) : Edited g → Edited (g.editNode id e)
  | duplicate {g : Graph} (ids : List NodeId) (offset : Position) :
    Edited g → Edited (g.duplicate ids offset).1

/-- Every edited graph fulfils the invariant. -/
theorem Edited.valid (h : g.Edited) : g.Valid := by
  induction h with
  | empty catalog => exact valid_empty catalog
  | createNode _ _ _ ih => exact ih.insertAs _ _
  | addNode _ _ ih => exact ih.insertAs _ _
  | insertAs id n _ ih => exact ih.insertAs id n
  | removeNode id _ ih => exact ih.removeNode id
  | connect a b _ ih => exact ih.connect a b
  | disconnect a b _ ih => exact ih.disconnect a b
  | disconnectAll id _ ih => exact ih.disconnectAll id
  | setHighlighted p highlighted _ ih =>
    exact ih.congr (fun q => peers_setHighlighted ..) fun q => direction?_setHighlighted ..
  | editNode id e _ ih => exact ih.congr (fun q => peers_editNode ..) fun q => direction?_editNode ..
  | duplicate ids offset _ ih => exact ih.duplicate ids offset

theorem Edited.wellFormed (h : g.Edited) : g.WellFormed := h.valid.wellFormed

theorem Edited.acyclic (h : g.Edited) : g.Acyclic := h.valid.acyclic

/-! ## What the invariant says about edges -/

/-- In every edited graph, nodes stand under their own ids, and an edge is entered once at either
end and joins an output and an input of different nodes that are not both auxiliary. -/
theorem Edited.edges_two_sided (h : g.Edited) :
    (∀ id n, g.node? id = some n → n.id = id) ∧
      ∀ p, (g.peers p).Nodup ∧ ∀ q ∈ g.peers p,
        (g.port? q).isSome = true ∧ p ∈ g.peers q ∧ p.node ≠ q.node ∧
          (g.direction? p = some .output ∧ g.direction? q = some .input ∨
            g.direction? p = some .input ∧ g.direction? q = some .output) ∧
          ¬(p.slot.isAux = true ∧ q.slot.isAux = true) := by
  have hw := h.wellFormed
  refine ⟨fun id n => Keyed.key_of_get?, fun p => ⟨hw.nodup p, fun q hq => ?_⟩⟩
  obtain ⟨d, hp, hd⟩ := hw.directed hq
  refine ⟨?_, hw.symm hq, hw.node_ne hq, ?_, ?_⟩
  · rw [isSome_port?, hd, Option.isSome_some]
  · cases d with
    | output => exact Or.inl ⟨hp, hd⟩
    | input => exact Or.inr ⟨hp, hd⟩
  · rintro ⟨hpaux, hqaux⟩
    rcases hw.primary hq with h | h
    · rw [hpaux] at h
      cases h
    · rw [hqaux] at h
      cases h

/-- Two joined nodes, the first replaced in place by a copy of the second that still carries the
edge, the two joined again, and both copied with the edge between them. -/
def replaced : Graph :=
  let first := (({} : Graph).createNode "LayerDense" default).1
  let both := (first.createNode "LayerStacked" default).1
  let joined := (both.connect (.output 0) (.input 1)).1
  let swapped := joined.insertAs 0 ((joined.node? 1).getD (.new 1 "LayerStacked" none default))
  let again := (swapped.connect (.output 0) (.input 1)).1
  (again.duplicate [0, 1] default).1

theorem edited_replaced : replaced.Edited :=
  .duplicate _ _ (.connect _ _ (.insertAs _ _ (.connect _ _
    (.createNode _ _ (.createNode _ _ (.empty Catalog.builtin))))))

theorem edges_two_sided_replaced :
    PortRef.input 3 ∈ replaced.peers (.output 2) ∧ PortRef.output 2 ∈ replaced.peers (.input 3) := by
  have hout : PortRef.input 3 ∈ replaced.peers (.output 2) := by decide +kernel
  exact ⟨hout, ((edited_replaced.edges_two_sided.2 _).2 _ hout).2.1⟩

end LayerNet.Graph
