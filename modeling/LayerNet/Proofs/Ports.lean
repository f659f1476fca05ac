import LayerNet.Proofs.Likeness

/-!
# Graphs told by their ports

A node is its bare form with the state of each of its ports, so a graph is told by its counter, its
catalog, its bare nodes and its ports (`ext_port?`).  Equations between graphs are proved here port
by port:

* `modifyPort_comm` — changes of different ports may trade places, hence `link_comm` and
  `unlink_comm`: it does not matter which end of an edge comes first;
* `unlink_link` — a new edge that is cut again leaves nothing behind.
-/

namespace LayerNet

@[simp] theorem Node.mapPorts_id (n : Node) : (n.mapPorts fun port => port) = n := by
  simp [mapPorts]

theorem Node.mapPorts_mapPorts (n : Node) (f f' : Port → Port) :
    (n.mapPorts f).mapPorts f' = n.mapPorts fun port => f' (f port) := by
  simp [mapPorts]

/-- A node is another one with all ports changed by `f`, if both are the same apart from their ports
and the ports of the one are the changed ports of the other. -/
theorem Node.eq_mapPorts {n n' : Node} {f : Port → Port} (hbare : n'.bare = n.bare)
    (hports : ∀ slot, n'.port? slot = (n.port? slot).map f) : n' = n.mapPorts f := by
  obtain ⟨hid, htype, hlabel, hposition, hstrings, hfloats, hspecial⟩ := fields_of_bare_eq hbare
  have hinput : n'.input = f n.input := Option.some.inj (hports .input)
  have houtput : n'.output = f n.output := Option.some.inj (hports .output)
  have haux : n'.aux = n.aux.map f := by
    apply List.ext_getElem?
    intro i
    rw [List.getElem?_map]
    exact hports (.aux i)
  cases n'
  cases n
  simp only at hid htype hlabel hposition hstrings hfloats hspecial hinput houtput haux
  subst hid htype hlabel hposition hstrings hfloats hspecial hinput houtput haux
  rfl

namespace Graph

variable {g g' : Graph} {a b p q : PortRef} {id : NodeId}

theorem node?_eq_mapPorts {f : Port → Port}
    (hbare : (g'.node? id).map Node.bare = (g.node? id).map Node.bare)
    (hports : ∀ slot, g'.port? ⟨id, slot⟩ = (g.port? ⟨id, slot⟩).map f) :
    g'.node? id = (g.node? id).map fun n => n.mapPorts f := by
  simp only [port?] at hports
  cases hn : g.node? id with
  | none =>
    rw [hn, Option.map_none, Option.map_eq_none_iff] at hbare
    rw [hbare, Option.map_none]
  | some n =>
    rw [hn, Option.map_some, Option.map_eq_some_iff] at hbare
    obtain ⟨n', hn', hbare⟩ := hbare
    have hn'_eq : n' = n.mapPorts f := by
      apply Node.eq_mapPorts hbare
      intro slot
      simpa [hn, hn'] using hports slot
    rw [hn', Option.map_some, hn'_eq]

theorem ext_node? (hnext : g'.nextId = g.nextId) (hcatalog : g'.catalog = g.catalog)
    (hnodes : ∀ id, g'.node? id = g.node? id) : g' = g := by
  have hkeyed : g'.nodes = g.nodes := Keyed.ext_get? hnodes
  cases g'
  cases g
  simp only at hnext hcatalog hkeyed
  rw [hnext, hcatalog, hkeyed]

/-- Two graphs with the same counter, the same catalog, the same bare nodes and the same ports are
equal. -/
theorem ext_port? (hnext : g'.nextId = g.nextId) (hcatalog : g'.catalog = g.catalog)
    (hbare : ∀ id, (g'.node? id).map Node.bare = (g.node? id).map Node.bare)
    (hports : ∀ p, g'.port? p = g.port? p) : g' = g := by
  refine ext_node? hnext hcatalog fun id => ?_
  rw [node?_eq_mapPorts (f := fun port => port) (hbare id) fun slot => by simp [hports]]
  simp

/-! ## The two ends of an edge -/

theorem modifyPort_comm (g : Graph) (hpq : p ≠ q) (f h : Port → Port) :
    (g.modifyPort p f).modifyPort q h = (g.modifyPort q h).modifyPort p f := by
  refine ext_port? rfl rfl (fun id => ?_) fun r => ?_
  · simp only [node?_bare_modifyPort]
  · simp only [port?_modifyPort]
    by_cases hp : p = r
    · have hq : q ≠ r := fun e => hpq (hp.trans e.symm)
      simp only [if_pos hp, if_neg hq]
    · simp only [if_neg hp]

/-- An edge may be named by either of its ends first. -/
theorem link_comm (g : Graph) (a b : PortRef) : g.link a b = g.link b a := by
  by_cases hab : a = b
  · rw [hab]
  · exact g.modifyPort_comm hab _ _

theorem unlink_comm (g : Graph) (a b : PortRef) : g.unlink a b = g.unlink b a := by
  by_cases hab : a = b
  · rw [hab]
  · exact g.modifyPort_comm hab _ _

theorem detach_attach {port : Port} (h : q ∉ port.peers) : (port.attach q).detach q = port := by
  have hkeep : port.peers.filter (fun r => r ≠ q) = port.peers := by
    refine List.filter_eq_self.2 fun r hr => ?_
    rw [decide_eq_true_iff]
    rintro rfl
    exact h hr
  rw [Port.attach, if_neg h, Port.detach]
  simp only [List.filter_append, hkeep]
  simp

/-- A new edge is entered at the end of two lists, from which cutting it takes it away again. -/
theorem unlink_link (hne : a ≠ b) (hab : b ∉ g.peers a) (hba : a ∉ g.peers b) :
    (g.link a b).unlink a b = g := by
  have hback : ∀ {p q : PortRef}, q ∉ g.peers p →
      ((g.port? p).map fun port => (port.attach q).detach q) = g.port? p := by
    intro p q hpq
    rw [peers_eq] at hpq
    cases hport : g.port? p with
    | none => rfl
    | some port =>
      rw [hport] at hpq
      rw [Option.map_some, detach_attach hpq]
  refine ext_port? rfl rfl (fun id => ?_) fun p => ?_
  · rw [node?_bare_unlink, node?_bare_link]
  · simp only [unlink, link, port?_modifyPort]
    by_cases hpa : a = p
    · subst hpa
      simp only [if_pos, if_neg hne.symm, Option.map_map]
      exact hback hab
    · by_cases hpb : b = p
      · subst hpb
        simp only [if_pos, if_neg hpa, Option.map_map]
        exact hback hba
      · simp only [if_neg hpa, if_neg hpb]

end Graph

end LayerNet
