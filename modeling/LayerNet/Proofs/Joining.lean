import LayerNet.Proofs.Likeness

/-!
# What a connection asks for and what it changes

Two ports that share no edge are joined exactly if an edge may join them and the edges together with
the new one keep the two rules of `EdgeSet.Lawful` (`Edited.connect_exact`).

* `Graph.Joined` — what a connection changes: the two ports each get one more peer, at the end;
* `ConnectError.Justified` — what each error claims about the two ports.  `canConnect` gives no
  error that is not justified (`WellFormed.justified_of_canConnect`).
-/

namespace LayerNet

open Relation

/-- What an error claims about two ports. -/
def ConnectError.Justified (g : Graph) (a b : PortRef) : ConnectError → Prop
  | .unknownPort p => (p = a ∨ p = b) ∧ g.port? p = none
  | .samePort => a = b
  | .sameNode => a.node = b.node
  | .sameDirection d => g.direction? a = some d ∧ g.direction? b = some d
  | .auxToAux => a.slot.isAux = true ∧ b.slot.isAux = true
  | .subgraphConflict node first second =>
    first ≠ second ∧ (g.edgeSet ⊔ EdgeSet.between a b).Captures first node ∧
      (g.edgeSet ⊔ EdgeSet.between a b).Captures second node
  | .cycle => ∃ u v, (a = .output u ∧ b = .input v ∨ a = .input v ∧ b = .output u) ∧
      ReflTransGen g.Flows v u

/-- The two ports may be named in either order. -/
theorem ConnectError.Justified.symm {g : Graph} {a b : PortRef} {e : ConnectError}
    (h : e.Justified g a b) : e.Justified g b a := by
  cases e with
  | unknownPort p => exact ⟨h.1.symm, h.2⟩
  | samePort => exact Eq.symm h
  | sameNode => exact Eq.symm h
  | sameDirection d => exact And.symm h
  | auxToAux => exact And.symm h
  | subgraphConflict node first second =>
    rw [Justified, EdgeSet.between_comm]
    exact h
  | cycle =>
    obtain ⟨u, v, hports, hpath⟩ := h
    exact ⟨u, v, hports.symm.imp And.symm And.symm, hpath⟩

namespace Graph

variable {g g' : Graph} {a b p q : PortRef} {id : NodeId} {e : ConnectError}

/-! ## Rejections -/

theorem port?_eq_none_of_direction? (h : g.direction? p = none) : g.port? p = none := by
  rw [← Option.isNone_iff_eq_none] at h ⊢
  rw [← Option.not_isSome, g.isSome_port?, Option.not_isSome, h]

/-- A conflict names a node that two special nodes capture after the connection. -/
theorem WellFormed.justified_of_subgraphConflict? (hg : g.WellFormed) (hjoin : g.Joinable a b)
    (hab : b ∉ g.peers a) (h : g.subgraphConflict? a b = some e) : e.Justified g a b := by
  rw [subgraphConflict?] at h
  split at h
  · rw [membership_trial hjoin.isSome_port?.1 hjoin.isSome_port?.2 hjoin.ne] at h
    obtain ⟨⟨node, owners⟩, hm, hfound⟩ := List.exists_of_findSome?_eq_some h
    have howners : (g.link a b).owners node = owners := (mem_membership hm).symm
    rcases owners with _ | ⟨first, _ | ⟨second, rest⟩⟩
    · cases hfound
    · cases hfound
    · dsimp only at hfound
      split at hfound
      · obtain rfl := Option.some.inj hfound
        have hnodup := (g.link a b).nodup_owners node
        have hcaptures : ∀ s ∈ (g.link a b).owners node,
            (g.edgeSet ⊔ EdgeSet.between a b).Captures s node := by
          intro s hs
          rw [← hjoin.edgeSet_link, (hg.link hjoin hab).captures_iff]
          exact (hg.link hjoin hab).mem_owners.1 hs
        rw [howners] at hnodup hcaptures
        refine ⟨?_, hcaptures first (by simp), hcaptures second (by simp)⟩
        rintro rfl
        exact (List.nodup_cons.1 hnodup).1 List.mem_cons_self
      · cases hfound
  · cases h

theorem WellFormed.justified_of_canJoin (hg : g.WellFormed) (ha : g.direction? a = some .output)
    (hb : g.direction? b = some .input) (hnode : a.node ≠ b.node) (hab : b ∉ g.peers a)
    (h : g.canJoin a b = .error e) : e.Justified g a b := by
  unfold canJoin at h
  split at h
  · rename_i haux
    cases h
    exact Bool.and_eq_true_iff.1 haux
  · rename_i haux
    have hprimary : a.slot.isAux = false ∨ b.slot.isAux = false := by
      simpa [Bool.and_eq_true, imp_iff_not_or] using haux
    split at h
    · rename_i conflict hconflict
      cases h
      exact hg.justified_of_subgraphConflict? ⟨⟨.output, ha, hb⟩, hnode, hprimary⟩ hab hconflict
    · split at h
      · rename_i hcycle
        cases h
        simp only [Bool.and_eq_true] at hcycle
        exact ⟨a.node, b.node, Or.inl ⟨eq_output_of_isPrimary ha hcycle.1.1,
          eq_input_of_isPrimary hb hcycle.1.2⟩, reaches_iff.1 hcycle.2⟩
      · cases h

/-- Whatever a rejection says is so. -/
theorem WellFormed.justified_of_canConnect (hg : g.WellFormed) (h : g.canConnect a b = .error e) :
    e.Justified g a b := by
  unfold canConnect at h
  split at h
  · rename_i ha
    cases h
    exact ⟨Or.inl rfl, port?_eq_none_of_direction? ha⟩
  · rename_i hb
    cases h
    exact ⟨Or.inr rfl, port?_eq_none_of_direction? hb⟩
  · rename_i da db ha hb
    split at h
    · rename_i hab
      cases h
      exact hab
    · split at h
      · rename_i hnode
        cases h
        exact hnode
      · rename_i hnode
        split at h
        · rename_i hd
          cases h
          exact ⟨ha, hd ▸ hb⟩
        · rename_i hd
          split at h
          · cases h
          · rename_i hnew
            have hab : b ∉ g.peers a := mt isConnected_iff.2 hnew
            have hopposite := Direction.eq_opposite hd
            subst hopposite
            cases da with
            | output => exact hg.justified_of_canJoin ha hb hnode hab h
            | input =>
              have hba : a ∉ g.peers b := fun hba => hab (hg.symm hba)
              exact (hg.justified_of_canJoin hb ha (Ne.symm hnode) hba h).symm

/-! ## The effect -/

/-- `g'` is `g` with one more edge, which is entered at the end of the lists of its two ports. -/
structure Joined (g g' : Graph) (a b : PortRef) : Prop where
  nextId : g'.nextId = g.nextId
  catalog : g'.catalog = g.catalog
  nodes : ∀ id, (g'.node? id).map Node.bare = (g.node? id).map Node.bare
  start : g'.port? a = (g.port? a).map fun port => { port with peers := port.peers ++ [b] }
  finish : g'.port? b = (g.port? b).map fun port => { port with peers := port.peers ++ [a] }
  others : ∀ p, p ≠ a → p ≠ b → g'.port? p = g.port? p

theorem attach_of_mem_port? {port : Port} (hab : b ∉ g.peers a) (h : g.port? a = some port) :
    port.attach b = { port with peers := port.peers ++ [b] } := by
  rw [peers_eq, h] at hab
  exact if_neg hab

theorem joined_link (hne : a ≠ b) (hab : b ∉ g.peers a) (hba : a ∉ g.peers b) :
    Joined g (g.link a b) a b := by
  have hattach : ∀ {p q : PortRef}, q ∉ g.peers p → (g.port? p).map (fun port => port.attach q) =
      (g.port? p).map fun port => { port with peers := port.peers ++ [q] } := fun hpq =>
    Option.map_congr fun port hport => attach_of_mem_port? hpq hport
  refine ⟨rfl, rfl, node?_bare_link g a b, ?_, ?_, fun p hpa hpb => ?_⟩
  · rw [link, port?_modifyPort, if_neg hne.symm, port?_modifyPort, if_pos rfl, hattach hab]
  · rw [link, port?_modifyPort, if_pos rfl, port?_modifyPort, if_neg hne, hattach hba]
  · rw [link, port?_modifyPort, if_neg hpb.symm, port?_modifyPort, if_neg hpa.symm]

/-! ## Connections -/

/-- A connection is made exactly if nothing speaks against it. -/
theorem connect_eq_true_iff : (g.connect a b).2 = true ↔ g.canConnect a b = .ok () := by
  cases h : g.canConnect a b with
  | error e => simp [connect_eq_of_error h]
  | ok _ => simp [connect_eq_of_ok h]

theorem connect_of_ok (h : g.canConnect a b = .ok ()) (hab : g.isConnected a b = false) :
    (g.connect a b).1 = g.link a b := by
  rw [connect_eq_of_ok h, hab]
  rfl

theorem joinable_iff : g.Joinable a b ↔
    ((g.port? a).isSome = true ∧ (g.port? b).isSome = true) ∧ a.node ≠ b.node ∧
      (g.direction? a = some .output ∧ g.direction? b = some .input ∨
        g.direction? a = some .input ∧ g.direction? b = some .output) ∧
      ¬(a.slot.isAux = true ∧ b.slot.isAux = true) := by
  have haux : (a.slot.isAux = false ∨ b.slot.isAux = false) ↔
      ¬(a.slot.isAux = true ∧ b.slot.isAux = true) := by
    rw [not_and_or, Bool.not_eq_true, Bool.not_eq_true]
  constructor
  · intro h
    refine ⟨h.isSome_port?, h.node_ne, ?_, haux.1 h.primary⟩
    obtain ⟨d, ha, hb⟩ := h.directed
    cases d with
    | output => exact Or.inl ⟨ha, hb⟩
    | input => exact Or.inr ⟨ha, hb⟩
  · rintro ⟨-, hnode, ⟨ha, hb⟩ | ⟨ha, hb⟩, hprimary⟩
    · exact ⟨⟨.output, ha, hb⟩, hnode, haux.2 hprimary⟩
    · exact ⟨⟨.input, ha, hb⟩, hnode, haux.2 hprimary⟩

/-- In every edited graph, two ports that share no edge are joined exactly if both exist, they belong
to different nodes, one is an output and one an input, they are not both auxiliary, and with the new
edge the primary edges form no cycle and no node is in two subgraphs.  If they are joined, the new
edge is all that changes; if not, nothing changes, and the reason is a true one. -/
theorem Edited.connect_exact (h : g.Edited) (hab : g.isConnected a b = false) :
    ((g.connect a b).2 = true ↔
      (((g.port? a).isSome = true ∧ (g.port? b).isSome = true) ∧ a.node ≠ b.node ∧
        (g.direction? a = some .output ∧ g.direction? b = some .input ∨
          g.direction? a = some .input ∧ g.direction? b = some .output) ∧
        ¬(a.slot.isAux = true ∧ b.slot.isAux = true)) ∧
      (g.edgeSet ⊔ EdgeSet.between a b).Acyclic ∧
      (g.edgeSet ⊔ EdgeSet.between a b).SingleOwner) ∧
    ((g.connect a b).2 = true → Joined g (g.connect a b).1 a b) ∧
    ((g.connect a b).2 = false →
      (g.connect a b).1 = g ∧ ∃ e, g.canConnect a b = .error e ∧ e.Justified g a b) ∧
    (∀ node first second, g.canConnect a b = .error (.subgraphConflict node first second) →
      first ≠ second ∧ (g.edgeSet ⊔ EdgeSet.between a b).Captures first node ∧
        (g.edgeSet ⊔ EdgeSet.between a b).Captures second node) ∧
    (g.canConnect a b = .error .cycle →
      ∃ u v, (a = .output u ∧ b = .input v ∨ a = .input v ∧ b = .output u) ∧
        ReflTransGen (fun x y => PortRef.input y ∈ g.peers (.output x)) v u) := by
  have hw := h.wellFormed
  have hnew : b ∉ g.peers a := by simpa [isConnected] using hab
  refine ⟨?_, fun hok => ?_, fun hno => ?_, fun node first second he => ?_, fun he => ?_⟩
  · rw [connect_eq_true_iff, hw.canConnect_iff h.lawful, joinable_iff]
    exact and_congr_right fun _ => ⟨fun hl => ⟨hl.acyclic, hl.single⟩, fun hl => ⟨hl.1, hl.2⟩⟩
  · have hcan := connect_eq_true_iff.1 hok
    have hne := (admitted_of_canConnect hcan hab).joinable.ne
    rw [connect_of_ok hcan hab]
    exact joined_link hne hnew fun hba => hnew (hw.symm hba)
  · cases he : g.canConnect a b with
    | ok _ =>
      rw [connect_eq_true_iff.2 he] at hno
      cases hno
    | error e => exact ⟨connect_of_error he, e, rfl, hw.justified_of_canConnect he⟩
  · exact hw.justified_of_canConnect he
  · obtain ⟨u, v, hports, hpath⟩ := hw.justified_of_canConnect he
    exact ⟨u, v, hports, ReflTransGen.mono (fun _ _ => flows_iff.1) _ _ hpath⟩

/-- The edge that `nested` refuses would bring node 3 into both subgraphs; an edge within the inner
subgraph is accepted. -/
theorem connect_nested :
    (nested.connect (.output 2) (.input 3)).2 = false ∧
      (nested.edgeSet ⊔ EdgeSet.between (.output 2) (.input 3)).Captures 0 3 ∧
      (nested.edgeSet ⊔ EdgeSet.between (.output 2) (.input 3)).Captures 1 3 ∧
      Joined nested (nested.connect (.output 3) (.aux 1 1)).1 (.output 3) (.aux 1 1) := by
  have hrefused := (edited_nested.connect_exact (a := .output 2) (b := .input 3)
    (by decide +kernel)).2.2.2.1 3 0 1 (by decide +kernel)
  have hjoined := (edited_nested.connect_exact (a := .output 3) (b := .aux 1 1)
    (by decide +kernel)).2.1 (by decide +kernel)
  exact ⟨by decide +kernel, hrefused.2.1, hrefused.2.2, hjoined⟩

end Graph

end LayerNet
