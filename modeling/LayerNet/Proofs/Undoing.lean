import LayerNet.Proofs.Joining
import LayerNet.Proofs.Ports

/-!
# Either end first, there and back again

An edge has two ends and no beginning: whatever is asked about two ports, or done with them, comes
out the same with the ports in the other order (`Edited.ends_exchangeable`).

Making an edge and cutting it are inverse to each other (`Edited.connect_reversible`).  A new edge
that is cut leaves the graph as it was, to the last list.  An edge that is cut may always be made
again, since fewer edges break no rule: only its place in the lists of its two ports is another one
then.
-/

namespace LayerNet.Graph

variable {g : Graph} {a b p q : PortRef}

/-! ## The ends in the other order -/

theorem WellFormed.isConnected_comm (hg : g.WellFormed) (a b : PortRef) :
    g.isConnected a b = g.isConnected b a := by
  rw [Bool.eq_iff_iff, isConnected_iff, isConnected_iff]
  exact ⟨hg.symm, hg.symm⟩

/-- A port that does not exist is named in any case; otherwise the two ports must be of different
directions before the rules for an output and an input come into play. -/
theorem WellFormed.canConnect_comm (hg : g.WellFormed)
    (hknown : (g.direction? a).isSome = true ∨ (g.direction? b).isSome = true) :
    g.canConnect a b = g.canConnect b a := by
  unfold canConnect
  cases ha : g.direction? a with
  | none =>
    cases hb : g.direction? b with
    | none => simp [ha, hb] at hknown
    | some db => rfl
  | some da =>
    cases hb : g.direction? b with
    | none => rfl
    | some db =>
      simp only [hg.isConnected_comm a b, eq_comm (a := a), eq_comm (a := a.node)]
      by_cases hd : da = db
      · rw [if_pos hd, if_pos hd.symm, hd]
      · -- the output comes first in both orders
        rw [if_neg hd, if_neg (Ne.symm hd)]
        cases da with
        | output =>
          cases db with
          | output => exact absurd rfl hd
          | input => rfl
        | input =>
          cases db with
          | output => rfl
          | input => exact absurd rfl hd

theorem canConnect_of_unknown (ha : g.direction? a = none) :
    g.canConnect a b = .error (.unknownPort a) := by
  unfold canConnect
  rw [ha]

theorem WellFormed.connect_comm (hg : g.WellFormed) (a b : PortRef) :
    g.connect a b = g.connect b a := by
  by_cases hknown : (g.direction? a).isSome = true ∨ (g.direction? b).isSome = true
  · have hcan := hg.canConnect_comm hknown
    cases h : g.canConnect b a with
    | error e => rw [connect_eq_of_error h, connect_eq_of_error (hcan.trans h)]
    | ok _ =>
      rw [connect_eq_of_ok h, connect_eq_of_ok (hcan.trans h), hg.isConnected_comm a b,
        g.link_comm a b]
  · rw [not_or, Option.not_isSome_iff_eq_none, Option.not_isSome_iff_eq_none] at hknown
    rw [connect_eq_of_error (canConnect_of_unknown hknown.1),
      connect_eq_of_error (canConnect_of_unknown hknown.2)]

/-! ## The same connection twice -/

theorem WellFormed.connect_of_mem (hg : g.WellFormed) (hab : b ∈ g.peers a) :
    g.connect a b = (g, true) := by
  rw [connect_eq_of_ok (hg.canConnect_of_mem hab), if_pos (isConnected_iff.2 hab)]

/-- After a connection the two ports are joined, or nothing has changed. -/
theorem WellFormed.connect_connect (hg : g.WellFormed) (a b : PortRef) :
    (g.connect a b).1.connect a b = g.connect a b := by
  cases h : g.canConnect a b with
  | error e => rw [connect_eq_of_error h, connect_eq_of_error h]
  | ok _ =>
    have hjoined : b ∈ (g.connect a b).1.peers a := by
      show (g.connect a b).1.edgeSet a b
      rw [hg.edgeSet_connect h]
      exact Or.inr (Or.inl ⟨rfl, rfl⟩)
    rw [(hg.connect a b).connect_of_mem hjoined, ← connect_eq_true_iff.2 h]

/-- In every edited graph the order of two ports does not matter, whether they exist or not: not for
whether they are joined, not for what becomes of a connection, and not for what speaks against it,
except that of two ports that do not exist the first one is named.  To ask for the same connection
again, in either order, gives the same answer and changes nothing. -/
theorem Edited.ends_exchangeable (h : g.Edited) (a b : PortRef) :
    g.isConnected a b = g.isConnected b a ∧
      g.connect a b = g.connect b a ∧
      ((g.port? a).isSome = true ∨ (g.port? b).isSome = true →
        g.canConnect a b = g.canConnect b a) ∧
      (g.port? a = none → g.port? b = none →
        g.canConnect a b = .error (.unknownPort a) ∧ g.canConnect b a = .error (.unknownPort b)) ∧
      (g.connect a b).1.connect a b = g.connect a b ∧
      (g.connect a b).1.connect b a = g.connect a b := by
  have hw := h.wellFormed
  have hunknown : ∀ {p q}, g.port? p = none → g.canConnect p q = .error (.unknownPort p) := by
    intro p q hp
    apply canConnect_of_unknown
    rw [← Option.not_isSome_iff_eq_none, ← isSome_port?, hp]
    exact Bool.false_ne_true
  refine ⟨hw.isConnected_comm a b, hw.connect_comm a b, ?_, ?_, hw.connect_connect a b, ?_⟩
  · intro hknown
    rw [isSome_port?, isSome_port?] at hknown
    exact hw.canConnect_comm hknown
  · intro ha hb
    exact ⟨hunknown ha, hunknown hb⟩
  · rw [(hw.connect a b).connect_comm, hw.connect_connect]

/-- An edge within the inner subgraph of `nested` is made from its input just as from its output,
once; the edge between the two subgraphs is refused from both ends for the same reason. -/
theorem exchangeable_nested :
    nested.connect (.aux 1 1) (.output 3) = nested.connect (.output 3) (.aux 1 1) ∧
      ((nested.connect (.output 3) (.aux 1 1)).1.connect (.aux 1 1) (.output 3)).2 = true ∧
      nested.canConnect (.input 3) (.output 2) = .error (.subgraphConflict 3 0 1) := by
  obtain ⟨-, hsame, -, -, -, hagain⟩ := edited_nested.ends_exchangeable (.output 3) (.aux 1 1)
  obtain ⟨-, -, hcan, -⟩ := edited_nested.ends_exchangeable (.output 2) (.input 3)
  refine ⟨hsame.symm, ?_, ?_⟩
  · rw [hagain]
    decide +kernel
  · rw [← hcan (by decide +kernel)]
    decide +kernel

/-! ## A connection undone -/

/-- A connection that makes a new edge is undone by cutting the edge. -/
theorem WellFormed.disconnect_connect (hg : g.WellFormed) (hab : g.isConnected a b = false)
    (hok : (g.connect a b).2 = true) : (g.connect a b).1.disconnect a b = g := by
  have hcan := connect_eq_true_iff.1 hok
  have hnew : b ∉ g.peers a := isConnected_eq_false_iff.1 hab
  have hne : a ≠ b := (admitted_of_canConnect hcan hab).joinable.ne
  rw [connect_of_ok hcan hab, disconnect]
  apply unlink_link hne hnew
  intro hba
  exact hnew (hg.symm hba)

/-! ## An edge made again -/

/-- Cutting an edge takes it from the edges, and nothing else. -/
theorem WellFormed.edgeSet_disconnect (hg : g.WellFormed) (hpq : q ∈ g.peers p) :
    (g.disconnect p q).edgeSet ⊔ EdgeSet.between p q = g.edgeSet := by
  ext x y
  show y ∈ (g.unlink p q).peers x ∨ (x = p ∧ y = q ∨ x = q ∧ y = p) ↔ y ∈ g.peers x
  rw [mem_peers_unlink]
  constructor
  · rintro (⟨hxy, -⟩ | ⟨rfl, rfl⟩ | ⟨rfl, rfl⟩)
    · exact hxy
    · exact hpq
    · exact hg.symm hpq
  · intro hxy
    by_cases hsame : x = p ∧ y = q ∨ x = q ∧ y = p
    · exact .inr hsame
    · exact .inl ⟨hxy, not_or.1 hsame⟩

/-- An edge that was cut may be made again: without it, the ports are still of opposite directions,
and with it the edges are as lawful as they were. -/
theorem Edited.canConnect_disconnect (hg : g.Edited) (hpq : q ∈ g.peers p) :
    (g.disconnect p q).canConnect p q = .ok () := by
  have hcut : (g.disconnect p q).Edited := .disconnect p q hg
  have hjoin := hg.wellFormed.joinable_of_mem hpq
  have hfree : (g.disconnect p q).Joinable p q :=
    ⟨by simpa only [Graph.disconnect, direction?_unlink] using hjoin.directed, hjoin.node_ne,
      hjoin.primary⟩
  rw [hcut.wellFormed.canConnect_iff hcut.lawful, hg.wellFormed.edgeSet_disconnect hpq]
  exact ⟨hfree, hg.lawful⟩

theorem Edited.edgeSet_rejoined (hg : g.Edited) (hpq : q ∈ g.peers p) :
    ((g.disconnect p q).connect p q).1.edgeSet = g.edgeSet := by
  have hcut : (g.disconnect p q).Edited := .disconnect p q hg
  rw [hcut.wellFormed.edgeSet_connect (hg.canConnect_disconnect hpq),
    hg.wellFormed.edgeSet_disconnect hpq]

/-- An edge that was cut and made again changes nothing but the order of edges. -/
theorem Edited.alike_rejoined (hg : g.Edited) (hpq : q ∈ g.peers p) :
    g.Alike ((g.disconnect p q).connect p q).1 where
  catalog := catalog_connect ..
  nodes id := by
    rw [node?_bare_connect, Graph.disconnect, node?_bare_unlink]
  peers x := by
    have hagain : ((g.disconnect p q).connect p q).1.Edited := .connect p q (.disconnect p q hg)
    refine (List.perm_ext_iff_of_nodup (hagain.wellFormed.nodup x) (hg.wellFormed.nodup x)).2 ?_
    intro y
    exact iff_of_eq (congrFun₂ (hg.edgeSet_rejoined hpq) x y)

/-- In every edited graph, a connection that makes a new edge is undone by cutting it, whichever
end is named first, and the graph is what it was before.  An edge that is cut may be made again,
and then the edges are those from before; nothing but the order in the lists of its two ports can
be different. -/
theorem Edited.connect_reversible (h : g.Edited) (a b : PortRef) :
    (g.isConnected a b = false → (g.connect a b).2 = true →
      (g.connect a b).1.disconnect a b = g ∧ (g.connect a b).1.disconnect b a = g) ∧
    (g.isConnected a b = true →
      ((g.disconnect a b).connect a b).2 = true ∧
        (∀ p q, q ∈ ((g.disconnect a b).connect a b).1.peers p ↔ q ∈ g.peers p) ∧
        g.Alike ((g.disconnect a b).connect a b).1) := by
  constructor
  · intro hnew hok
    have hundone := h.wellFormed.disconnect_connect hnew hok
    refine ⟨hundone, ?_⟩
    rw [Graph.disconnect, unlink_comm]
    exact hundone
  · intro hjoined
    have hab : b ∈ g.peers a := isConnected_iff.1 hjoined
    refine ⟨connect_eq_true_iff.2 (h.canConnect_disconnect hab), ?_, h.alike_rejoined hab⟩
    intro p q
    exact iff_of_eq (congrFun₂ (h.edgeSet_rejoined hab) p q)

/-- A node that feeds two others. -/
def fanned : Graph :=
  ((({} : Graph).createAll ["LayerDense", "LayerDense", "LayerDense"]).connectAll
    [(.output 0, .input 1), (.output 0, .input 2)])

theorem edited_fanned : fanned.Edited := ((Built.new.createAll _).connectAll _).edited

/-- A third edge in `fanned` is undone from its other end.  Its first edge, cut and made again, is
the last one of its output. -/
theorem reversible_fanned :
    (fanned.connect (.output 1) (.input 2)).1.disconnect (.input 2) (.output 1) = fanned ∧
      fanned.Alike ((fanned.disconnect (.output 0) (.input 1)).connect (.output 0) (.input 1)).1 ∧
      ((fanned.disconnect (.output 0) (.input 1)).connect (.output 0) (.input 1)).1.peers
        (.output 0) = [.input 2, .input 1] := by
  have hundone := (edited_fanned.connect_reversible (.output 1) (.input 2)).1 (by decide +kernel)
    (by decide +kernel)
  have hagain := (edited_fanned.connect_reversible (.output 0) (.input 1)).2 (by decide +kernel)
  exact ⟨hundone.2, hagain.2.2, by decide +kernel⟩

end LayerNet.Graph
