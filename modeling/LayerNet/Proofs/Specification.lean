import LayerNet.Proofs.Footprint
import LayerNet.Proofs.Lawful

/-!
# What the report on a network decides

`Graph.Structured` is the specification of a network that may be compiled: it speaks of the edges and
of paths over them, and of no search or table.  The checks of the report decide it, part by part:

* `WellFormed.mem_realInputs_iff`, `WellFormed.mem_realOutputs_iff` — the inputs and outputs that the
  checks start from are those of the edges;
* `WellFormed.subgraphFindings_eq_nil_iff` — the checks of the subgraphs say that what meets the
  primary ports of a captured node belongs to the special node;
* `WellFormed.findings_eq_nil_iff_structured` — nothing is found exactly in structured networks;
* `Edited.report_decides` — so an edited network is refused for its structure exactly if it is not
  structured, and it never gets as far as having no inputs.
-/

namespace LayerNet

open Relation

namespace EdgeSet

/-- A node takes part in the network: it has an edge, and no special node captures it. -/
structure Takes (E : EdgeSet) (id : NodeId) : Prop where
  joined : ∃ slot q, E ⟨id, slot⟩ q
  free : ∀ s, ¬E.Captures s id

/-- A node at which the network begins: nothing feeds it. -/
def Begins (E : EdgeSet) (id : NodeId) : Prop := E.Takes id ∧ ∀ q, ¬E (.input id) q

/-- A node at which the network ends: it feeds nothing. -/
def Ends (E : EdgeSet) (id : NodeId) : Prop := E.Takes id ∧ ∀ q, ¬E (.output id) q

end EdgeSet

namespace Graph

variable {g : Graph} {s id : NodeId} {n : Node} {p q : PortRef}

/-- The specification of a network that may be compiled. -/
structure Structured (g : Graph) : Prop where
  /-- Every node has an edge on some port. -/
  joined : ∀ id ∈ g.ids, ∃ slot q, g.edgeSet ⟨id, slot⟩ q
  /-- The network has an input. -/
  begins : ∃ id, g.edgeSet.Begins id
  /-- The network has an output. -/
  ends : ∃ id, g.edgeSet.Ends id
  /-- Every input leads to an output. -/
  arrives : ∀ a, g.edgeSet.Begins a → ∃ b, g.edgeSet.Ends b ∧ ReflTransGen g.edgeSet.Flows a b
  /-- A node with two edges on its primary input has a merging type. -/
  merges : ∀ id n, g.node? id = some n → ∀ p q, g.edgeSet (.input id) p → g.edgeSet (.input id) q →
    p ≠ q → g.catalog.isMerge n.layerType = true
  /-- No node is captured by two special nodes. -/
  single : g.edgeSet.SingleOwner
  /-- The primary ports of a captured node have edges. -/
  passed : ∀ s id, g.edgeSet.Captures s id →
    (∃ q, g.edgeSet (.input id) q) ∧ ∃ q, g.edgeSet (.output id) q
  /-- They meet auxiliary ports of the special node and ports of other nodes that it captures. -/
  enclosed : ∀ s id, g.edgeSet.Captures s id → ∀ q,
    g.edgeSet (.input id) q ∨ g.edgeSet (.output id) q →
      q.node = s ∧ q.slot.isAux = true ∨ q.node ≠ id ∧ g.edgeSet.Captures s q.node

/-! ## Inputs and outputs -/

theorem peers_ne_nil_iff : g.peers p ≠ [] ↔ ∃ q, g.edgeSet p q :=
  ⟨List.exists_mem_of_ne_nil _, fun ⟨_, hq⟩ => List.ne_nil_of_mem hq⟩

theorem peers_eq_nil_iff : g.peers p = [] ↔ ∀ q, ¬g.edgeSet p q :=
  List.eq_nil_iff_forall_not_mem

theorem hasConnections_iff_edge (hn : g.node? id = some n) :
    n.hasConnections = true ↔ ∃ slot q, g.edgeSet ⟨id, slot⟩ q := by
  simp only [hasConnections_iff hn, peers_ne_nil_iff]

/-- A node with an edge is a node of the graph. -/
theorem exists_node?_of_edge (h : ∃ slot q, g.edgeSet ⟨id, slot⟩ q) : ∃ n, g.node? id = some n := by
  obtain ⟨slot, q, hq⟩ := h
  exact exists_node? (mem_ids_of_mem_peers hq)

theorem WellFormed.takes_iff (hg : g.WellFormed) :
    g.edgeSet.Takes id ↔ ∃ n, g.node? id = some n ∧ n.hasConnections = true ∧
      id ∉ g.membership.map Prod.fst := by
  rw [hg.mem_membership_iff]
  simp only [← hg.captures_iff, not_exists]
  constructor
  · rintro ⟨hjoined, hfree⟩
    obtain ⟨n, hn⟩ := exists_node?_of_edge hjoined
    exact ⟨n, hn, (hasConnections_iff_edge hn).2 hjoined, hfree⟩
  · rintro ⟨n, hn, hconn, hfree⟩
    exact ⟨(hasConnections_iff_edge hn).1 hconn, hfree⟩

theorem WellFormed.mem_realInputs_iff (hg : g.WellFormed) :
    id ∈ g.realInputs ↔ g.edgeSet.Begins id := by
  rw [mem_realInputs, EdgeSet.Begins, hg.takes_iff, ← peers_eq_nil_iff]
  constructor
  · rintro ⟨n, hn, hconn, hin, hfree⟩
    exact ⟨⟨n, hn, hconn, hfree⟩, hin⟩
  · rintro ⟨⟨n, hn, hconn, hfree⟩, hin⟩
    exact ⟨n, hn, hconn, hin, hfree⟩

theorem WellFormed.mem_realOutputs_iff (hg : g.WellFormed) :
    id ∈ g.realOutputs ↔ g.edgeSet.Ends id := by
  rw [mem_realOutputs, EdgeSet.Ends, hg.takes_iff, ← peers_eq_nil_iff]
  constructor
  · rintro ⟨n, hn, hconn, hout, hfree⟩
    exact ⟨⟨n, hn, hconn, hfree⟩, hout⟩
  · rintro ⟨⟨n, hn, hconn, hfree⟩, hout⟩
    exact ⟨n, hn, hconn, hout, hfree⟩

/-! ## The parts of the report -/

theorem disconnectedNodes_eq_nil_iff_joined :
    g.disconnectedNodes = [] ↔ ∀ id ∈ g.ids, ∃ slot q, g.edgeSet ⟨id, slot⟩ q := by
  rw [disconnectedNodes_eq_nil_iff]
  constructor
  · intro h id hid
    obtain ⟨n, hn⟩ := exists_node? hid
    exact (hasConnections_iff_edge hn).1 (h n (mem_nodes_of_node? hn))
  · intro h n hn
    have hnode := mem_nodes_iff.1 hn
    exact (hasConnections_iff_edge hnode).2 (h n.id (mem_ids_of_node? hnode))

theorem WellFormed.endFindings_eq_nil_iff_arrives (hg : g.WellFormed) :
    g.endFindings = [] ↔ (∃ id, g.edgeSet.Begins id) ∧ (∃ id, g.edgeSet.Ends id) ∧
      ∀ a, g.edgeSet.Begins a → ∃ b, g.edgeSet.Ends b ∧ ReflTransGen g.edgeSet.Flows a b := by
  have hsome : ∀ l : List NodeId, l ≠ [] ↔ ∃ id, id ∈ l := fun l =>
    ⟨List.exists_mem_of_ne_nil l, fun ⟨_, hid⟩ => List.ne_nil_of_mem hid⟩
  simp only [endFindings_eq_nil_iff, hsome, reachesAny_iff, hg.mem_realInputs_iff,
    hg.mem_realOutputs_iff, edgeSet_flows_eq]

/-- A list without repetitions has two entries if it has two different ones. -/
theorem one_lt_length_iff {l : List PortRef} (h : l.Nodup) :
    1 < l.length ↔ ∃ p ∈ l, ∃ q ∈ l, p ≠ q := by
  match l, h with
  | [], _ => simp
  | [p], _ => simp
  | p :: q :: rest, h =>
    have hne : p ≠ q := fun e => (List.nodup_cons.1 h).1 (e ▸ List.mem_cons_self)
    exact iff_of_true (by simp) ⟨p, by simp, q, by simp, hne⟩

theorem WellFormed.unmergedNodes_eq_nil_iff_merges (hg : g.WellFormed) :
    g.unmergedNodes = [] ↔ ∀ id n, g.node? id = some n → ∀ p q, g.edgeSet (.input id) p →
      g.edgeSet (.input id) q → p ≠ q → g.catalog.isMerge n.layerType = true := by
  rw [unmergedNodes_eq_nil_iff]
  constructor
  · intro h id n hn p q hp hq hne
    refine h n (mem_nodes_of_node? hn) ?_
    rw [← peers_input hn]
    exact (one_lt_length_iff (hg.nodup _)).2 ⟨p, hp, q, hq, hne⟩
  · intro h n hn hlen
    have hnode := mem_nodes_iff.1 hn
    rw [← peers_input hnode] at hlen
    obtain ⟨p, hp, q, hq, hne⟩ := (one_lt_length_iff (hg.nodup _)).1 hlen
    exact h n.id n hnode p q hp hq hne

/-- Inside the subgraph of `s` are its auxiliary ports and the nodes that it captures, but not its
own primary ports. -/
theorem WellFormed.isInside_iff (hg : g.WellFormed) :
    isInside s (g.subgraph s) q = true ↔
      q.node = s ∧ q.slot.isAux = true ∨ g.edgeSet.Captures s q.node := by
  rw [hg.captures_iff, isInside]
  by_cases hs : q.node = s
  · have hself : q.node ∉ g.subgraph s := hs ▸ hg.not_mem_subgraph_self s
    simp [hs, hs ▸ hself]
  · simp [hs]

theorem WellFormed.subgraphFindings_eq_nil_iff (hg : g.WellFormed) :
    g.subgraphFindings = [] ↔ ∀ s id, g.edgeSet.Captures s id →
      ((∃ q, g.edgeSet (.input id) q) ∧ ∃ q, g.edgeSet (.output id) q) ∧
      ∀ q, g.edgeSet (.input id) q ∨ g.edgeSet (.output id) q →
        q.node = s ∧ q.slot.isAux = true ∨ q.node ≠ id ∧ g.edgeSet.Captures s q.node := by
  -- no port of a node is joined to the node itself
  have hother : ∀ {id q}, g.edgeSet (.input id) q ∨ g.edgeSet (.output id) q → q.node ≠ id := by
    rintro id q (hq | hq)
    · exact fun e => hg.node_ne hq e.symm
    · exact fun e => hg.node_ne hq e.symm
  have hmember : ∀ {special n : Node} {id : NodeId}, g.node? id = some n →
      (g.memberFindings special (g.subgraph special.id) id = [] ↔
        ((∃ q, g.edgeSet (.input id) q) ∧ ∃ q, g.edgeSet (.output id) q) ∧
        ∀ q, g.edgeSet (.input id) q ∨ g.edgeSet (.output id) q →
          q.node = special.id ∧ q.slot.isAux = true ∨
            q.node ≠ id ∧ g.edgeSet.Captures special.id q.node) := by
    intro special n id hn
    rw [memberFindings_eq_nil_iff hn, ← peers_input hn, ← peers_output hn, peers_ne_nil_iff,
      peers_ne_nil_iff, and_assoc]
    refine and_congr_right fun _ => and_congr_right fun _ => forall_congr' fun q => ?_
    rw [List.mem_append, hg.isInside_iff]
    exact forall_congr' fun hq => or_congr_right (iff_and_self.2 fun _ => hother hq)
  rw [subgraphFindings, List.flatMap_eq_nil_iff]
  constructor
  · intro h s id hcaptures
    have hid := hg.captures_iff.1 hcaptures
    obtain ⟨special, hs, hspecial⟩ := hg.isSpecial_of_mem_subgraph hid
    obtain ⟨n, hn⟩ := exists_node? (mem_ids_of_mem_subgraph hid)
    obtain rfl := id_of_node? hs
    have hnone := h special (List.mem_filter.2 ⟨mem_nodes_of_node? hs, hspecial⟩)
    exact (hmember hn).1 (List.flatMap_eq_nil_iff.1 hnone id hid)
  · intro h special _
    refine List.flatMap_eq_nil_iff.2 fun id hid => ?_
    obtain ⟨n, hn⟩ := exists_node? (mem_ids_of_mem_subgraph hid)
    exact (hmember hn).2 (h special.id id (hg.captures_iff.2 hid))

/-- Nothing stands against a network exactly if it meets the specification. -/
theorem WellFormed.findings_eq_nil_iff_structured (hg : g.WellFormed) :
    g.findings = [] ↔ g.Structured := by
  rw [findings_eq_nil_iff, disconnectedNodes_eq_nil_iff_joined, hg.endFindings_eq_nil_iff_arrives,
    hg.unmergedNodes_eq_nil_iff_merges, sharedNodes_eq_nil_iff, ← hg.singleOwner_iff,
    hg.subgraphFindings_eq_nil_iff]
  constructor
  · rintro ⟨hjoined, ⟨hbegins, hends, harrives⟩, hmerges, hsingle, hsub⟩
    exact ⟨hjoined, hbegins, hends, harrives, hmerges, hsingle, fun s id h => (hsub s id h).1,
      fun s id h => (hsub s id h).2⟩
  · rintro ⟨hjoined, hbegins, hends, harrives, hmerges, hsingle, hpassed, henclosed⟩
    exact ⟨hjoined, ⟨hbegins, hends, harrives⟩, hmerges, hsingle,
      fun s id h => ⟨hpassed s id h, henclosed s id h⟩⟩

/-! ## Refusals -/

/-- A network without errors in its report is refused for an obstacle at some node only. -/
theorem compile_error_of_no_findings {config : CompilerConfig} {e : CompileError}
    (hreport : g.validate.hasErrors = false) (h : g.compile config = .error e) :
    ∃ node obstacle, e = .unsupported node obstacle := by
  have hinputs : g.realInputs ≠ [] :=
    (endFindings_eq_nil_iff.1 (findings_eq_nil_iff.1 (hasErrors_validate.1 hreport)).2.1).1
  have hplacing := (Expander.Program.heads g config g.realInputs none).placing
    (Expander.placing_levels g config g.size)
  have hrun : g.compile config = ((g.expander config).heads g config g.realInputs none).run' [] := by
    rw [compile]
    simp only [hreport, Bool.false_eq_true, if_false]
  rw [hrun, StateT.run'] at h
  cases hheads : (g.expander config).heads g config g.realInputs none [] with
  | ok r =>
    rw [hheads] at h
    cases h
  | error d =>
    rw [hheads] at h
    cases h
    exact hplacing.refusal hheads

/-- The report on an edited network has no errors exactly if the network is structured.  So it is
refused for its structure exactly if it is not structured, and never for a lack of inputs. -/
theorem Edited.report_decides (h : g.Edited) :
    (g.validate.hasErrors = false ↔ g.Structured) ∧
      ∀ config : CompilerConfig,
        ((∃ report, g.compile config = .error (.invalidNetwork report)) ↔ ¬g.Structured) ∧
          g.compile config ≠ .error .noInputs := by
  have hreport : g.validate.hasErrors = false ↔ g.Structured :=
    hasErrors_validate.trans h.wellFormed.findings_eq_nil_iff_structured
  refine ⟨hreport, fun config => ?_⟩
  by_cases herrors : g.validate.hasErrors = true
  · have hinvalid : g.compile config = .error (.invalidNetwork g.validate) := by
      rw [compile]
      exact if_pos herrors
    have hnot : ¬g.Structured := fun hs => by
      rw [hreport.2 hs] at herrors
      cases herrors
    rw [hinvalid]
    exact ⟨iff_of_true ⟨g.validate, rfl⟩ hnot, fun e => by cases e⟩
  · have hnone : g.validate.hasErrors = false := Bool.eq_false_iff.2 herrors
    have hrefused : ∀ e, g.compile config = .error e →
        ∃ node obstacle, e = .unsupported node obstacle :=
      fun e he => compile_error_of_no_findings hnone he
    refine ⟨iff_of_false ?_ (not_not.2 (hreport.1 hnone)), ?_⟩
    · rintro ⟨report, he⟩
      obtain ⟨node, obstacle, hcases⟩ := hrefused _ he
      cases hcases
    · intro he
      obtain ⟨node, obstacle, hcases⟩ := hrefused _ he
      cases hcases

/-- A network in which a special node houses another one: `2` and `3` are captured by `1`, and `4` by
`3`. -/
def housed : Graph :=
  (createAll {} ["LayerDense", "LayerStacked", "LayerDense", "LayerStacked", "LayerDense",
    "LayerDense"]).connectAll
    [(.output 0, .input 1), (.output 1, .input 5), (.aux 1 0, .input 2), (.output 2, .input 3),
      (.output 3, .aux 1 1), (.aux 3 0, .input 4), (.output 4, .aux 3 1)]

theorem built_housed : housed.Built := (Built.new.createAll _).connectAll _

/-- `housed` is structured.  Without the edge that leads out of the outer subgraph it is not, and it
is refused. -/
theorem report_decides_housed :
    housed.Structured ∧ ¬(housed.disconnect (.output 3) (.aux 1 1)).Structured ∧
      ∃ report, (housed.disconnect (.output 3) (.aux 1 1)).compile {} =
        .error (.invalidNetwork report) := by
  have hopen := (Built.disconnect (.output 3) (.aux 1 1) built_housed).edited.report_decides
  have hnot : ¬(housed.disconnect (.output 3) (.aux 1 1)).Structured := by
    rw [← hopen.1]
    decide +kernel
  refine ⟨?_, hnot, ((hopen.2 {}).1).2 hnot⟩
  refine (built_housed.edited.report_decides.1).1 ?_
  decide +kernel

end Graph

end LayerNet
