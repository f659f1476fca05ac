import LayerNet.Engine.Capabilities
import LayerNet.Proofs.History
import LayerNet.Proofs.Words

/-!
# Described parameters

An engine may say of a string parameter that it names an activation, an initializer or a reduction.
`reports_faults` is what the check of a network makes of that: the errors about a node of a known
and described type are the faults of its string parameters, one for each position that has one and
in the order of the positions.

The descriptions are the pieces of the second line of a text between semicolons, but pieces that
are blank do not count.  So the positions are those among the other pieces, and behind a blank
piece each parameter is checked against the description after its own.
-/

namespace LayerNet

/-! ## Reports by position -/

/-- There is one finding for each position that has one, in the order of the positions. -/
def Reports (findings : List Diagnostic) (due : Nat → Diagnostic → Prop) : Prop :=
  ∃ positions : List Nat, positions.Pairwise (· < ·) ∧ List.Forall₂ due positions findings ∧
    ∀ i d, due i d → i ∈ positions

namespace Reports

variable {α : Type} {findings : List Diagnostic} {due : Nat → Diagnostic → Prop} {d : Diagnostic}

/-- What is reported is due at some position. -/
theorem exists_due (h : Reports findings due) (hd : d ∈ findings) : ∃ i, due i d := by
  obtain ⟨positions, -, hdue, -⟩ := h
  obtain ⟨k, hk, rfl⟩ := List.mem_iff_getElem.1 hd
  have hk' : k < positions.length := hdue.length_eq ▸ hk
  exact ⟨positions.get ⟨k, hk'⟩, hdue.get hk' hk⟩

/-- A check that finds at most one thing in each element of a list finds what is due there. -/
theorem flatMap (check : α → List Diagnostic) (hone : ∀ a, (check a).length ≤ 1) (l : List α) :
    Reports (l.flatMap check) fun i d => ∃ a, l[i]? = some a ∧ d ∈ check a := by
  induction l with
  | nil => exact ⟨[], .nil, .nil, fun i d ⟨a, ha, _⟩ => by simp at ha⟩
  | cons a l ih =>
    obtain ⟨positions, hsorted, hdue, hall⟩ := ih
    have hrest : List.Forall₂ (fun i d => ∃ b, (a :: l)[i]? = some b ∧ d ∈ check b)
        (positions.map (· + 1)) (l.flatMap check) := by
      simpa [List.forall₂_map_left_iff] using hdue
    have hsorted' : (positions.map (· + 1)).Pairwise (· < ·) :=
      List.pairwise_map.2 (hsorted.imp fun h => Nat.succ_lt_succ h)
    rw [List.flatMap_cons]
    rcases hfound : check a with _ | ⟨d, ds⟩
    · refine ⟨positions.map (· + 1), hsorted', hrest, ?_⟩
      rintro (_ | i) d ⟨b, hb, hd⟩
      · cases hb
        rw [hfound] at hd
        cases hd
      · exact List.mem_map_of_mem (hall i d ⟨b, hb, hd⟩)
    · obtain rfl : ds = [] := by
        have := hone a
        rw [hfound] at this
        exact List.length_eq_zero_iff.1 (by simpa using this)
      refine ⟨0 :: positions.map (· + 1), ?_, ?_, ?_⟩
      · exact List.pairwise_cons.2 ⟨by simp, hsorted'⟩
      · exact .cons ⟨a, rfl, by simp [hfound]⟩ hrest
      · rintro (_ | i) d ⟨b, hb, hd⟩
        · exact List.mem_cons_self
        · exact List.mem_cons_of_mem _ (List.mem_map_of_mem (hall i d ⟨b, hb, hd⟩))

end Reports

/-! ## Descriptions -/

namespace LayerUsage

/-- What stands between the semicolons in the second line of a text. -/
def pieces (text : String) : List String :=
  (((text.toList.splitOn '\n')[1]?.getD []).splitOn ';').map String.ofList

/-- The pieces that are not blank. -/
def descriptions (text : String) : List String :=
  (pieces text).filter fun piece => !piece.toList.all Text.isBlank

theorem stringParams_ofText (text : String) :
    (ofText text).stringParams = (descriptions text).map Text.trim := by
  have hcut : (ofText text).stringParams = cutDescriptions (String.ofList
      ((text.toList.splitOn '\n')[1]?.getD [])) := by
    simp only [ofText, Text.cut_eq, List.getElem?_map]
    cases (text.toList.splitOn '\n')[1]? with
    | none => rfl
    | some line => rfl
  rw [hcut, cutDescriptions, Text.cut_eq, String.toList_ofList, ← pieces, List.filter_map,
    descriptions]
  congr 1
  refine List.filter_congr fun piece _ => ?_
  rw [Function.comp_apply, Bool.eq_iff_iff, decide_eq_true_iff, ne_eq, Text.trim_eq_empty_iff,
    ← List.all_eq_true, Bool.not_eq_true', Bool.not_eq_true]

end LayerUsage

/-! ## The check of a node -/

namespace Capabilities

variable {c : Capabilities} {n : Node} {g : Graph} {d : Diagnostic}
  {description value what text : String} {lower : String → String} {id : NodeId}

/-- What a value should be but is not, by its description in lower case. -/
inductive Lacks (c : Capabilities) (description value : String) : String → Prop
  | activation (h : "activation".toList <:+: description.toList)
      (hvalue : ¬c.activations.contains value) : Lacks c description value "Activation"
  | initializer (hnone : ¬"activation".toList <:+: description.toList)
      (h : "initializer".toList <:+: description.toList)
      (hvalue : ¬c.initializers.contains value) : Lacks c description value "Initializer"
  | reduction (hnone : ¬"activation".toList <:+: description.toList)
      (hnone' : ¬"initializer".toList <:+: description.toList)
      (h : "reduction".toList <:+: description.toList)
      (hvalue : ¬c.reductions.contains value) : Lacks c description value "Reduction"

/-- The error about a string parameter. -/
def unavailable (n : Node) (what value : String) : Diagnostic :=
  .error s!"{what} '{value}' is not available for layer '{n.layerType}'" (some n.id)

/-- The error that is due for the string parameter at a position: the description at this position
asks for a name that the engine does not know. -/
def Faulty (c : Capabilities) (lower : String → String) (descriptions : List String) (n : Node)
    (i : Nat) (d : Diagnostic) : Prop :=
  ∃ description value what, descriptions[i]? = some description ∧
    n.stringParams[i]? = some value ∧ c.Lacks (lower description) value what ∧
    d = unavailable n what value

theorem plain_activation : Text.Plain "activation".toList := by decide

theorem plain_initializer : Text.Plain "initializer".toList := by decide

theorem plain_reduction : Text.Plain "reduction".toList := by decide

theorem length_checkStringParam_le : (c.checkStringParam n description value).length ≤ 1 := by
  rw [checkStringParam]
  split
  · exact Nat.zero_le _
  · split <;> simp

/-- What a value lacks is a name of the vocabulary that its description asks for; the blanks around
a description do not matter. -/
theorem lacks_iff (hlower : ∀ s, Text.LowercaseOf s (lower s)) :
    c.Lacks (lower description) value what ↔
      ∃ names, c.vocabulary? (Text.trim description) = some (what, names) ∧
        ¬names.contains value := by
  have hmentions : ∀ word : String, Text.Plain word.toList → word.toList ≠ [] →
      (Text.mentions word (Text.trim description) = true ↔
        word.toList <:+: (lower description).toList) := fun word hword hne => by
    rw [Text.mentions_trim hword hne, Text.mentions_iff hword hne (hlower description)]
  simp only [vocabulary?, hmentions _ plain_activation (by decide),
    hmentions _ plain_initializer (by decide), hmentions _ plain_reduction (by decide)]
  constructor
  · rintro (⟨h, hvalue⟩ | ⟨hnone, h, hvalue⟩ | ⟨hnone, hnone', h, hvalue⟩)
    · exact ⟨_, if_pos h, hvalue⟩
    · exact ⟨_, by rw [if_neg hnone, if_pos h], hvalue⟩
    · exact ⟨_, by rw [if_neg hnone, if_neg hnone', if_pos h], hvalue⟩
  · rintro ⟨names, hnames, hvalue⟩
    split_ifs at hnames with hactivation hinitializer hreduction
    · cases hnames
      exact .activation hactivation hvalue
    · cases hnames
      exact .initializer hactivation hinitializer hvalue
    · cases hnames
      exact .reduction hactivation hinitializer hreduction hvalue

theorem mem_checkStringParam_iff : d ∈ c.checkStringParam n description value ↔
    ∃ what names, c.vocabulary? description = some (what, names) ∧ ¬names.contains value ∧
      d = unavailable n what value := by
  rw [checkStringParam]
  split
  · rename_i hnone
    simp [hnone]
  · rename_i what names hsome
    simp only [hsome, Option.some.injEq, Prod.mk.injEq]
    split_ifs with hvalue
    · refine iff_of_false List.not_mem_nil ?_
      rintro ⟨_, _, ⟨rfl, rfl⟩, hvalue', -⟩
      exact hvalue' hvalue
    · rw [List.mem_singleton]
      exact ⟨fun h => ⟨_, _, ⟨rfl, rfl⟩, hvalue, h⟩,
        fun ⟨_, _, ⟨hwhat, _⟩, _, h⟩ => hwhat ▸ h⟩

theorem isError_of_mem_checkStringParam (h : d ∈ c.checkStringParam n description value) :
    d.isError = true := by
  obtain ⟨what, names, -, -, rfl⟩ := mem_checkStringParam_iff.1 h
  rfl

theorem eq_warning_of_mem_checkFloatParams {usage : LayerUsage} (h : d ∈ checkFloatParams usage n) :
    ∃ message, d = .warning message (some n.id) := by
  rw [checkFloatParams] at h
  dsimp only at h
  split at h
  · exact absurd h List.not_mem_nil
  · split_ifs at h
    · exact absurd h List.not_mem_nil
    · exact ⟨_, List.mem_singleton.1 h⟩

/-- The findings of the check of a node are about this node. -/
theorem node_of_mem_checkNode (h : d ∈ c.checkNode n) : d.node = some n.id := by
  rw [checkNode] at h
  split_ifs at h
  · split at h
    · exact absurd h List.not_mem_nil
    · rcases List.mem_append.1 h with h | h
      · obtain ⟨pair, -, hd⟩ := List.mem_flatMap.1 h
        obtain ⟨what, names, -, -, rfl⟩ := mem_checkStringParam_iff.1 hd
        rfl
      · obtain ⟨message, rfl⟩ := eq_warning_of_mem_checkFloatParams h
        rfl
  · rw [List.mem_singleton.1 h]
    rfl

/-- What a report says about a node is what the check of this node finds. -/
theorem filter_diagnostics_checkNodes (hn : g.node? id = some n) :
    ((c.checkNodes g).diagnostics.filter fun d => d.node = some id) = c.checkNode n := by
  obtain ⟨hmem, rfl⟩ := Keyed.get?_eq_some_iff.1 hn
  obtain ⟨before, after, hnodes⟩ := List.append_of_mem hmem
  have hsorted := g.nodes.sorted
  rw [hnodes, List.pairwise_append, List.pairwise_cons] at hsorted
  have hself : ((c.checkNode n).filter fun d => d.node = some n.id) = c.checkNode n :=
    List.filter_eq_self.2 fun d hd => decide_eq_true (node_of_mem_checkNode hd)
  have hother : ∀ l : List Node, (∀ m ∈ l, m.id ≠ n.id) →
      ((l.flatMap c.checkNode).filter fun d => d.node = some n.id) = [] := by
    intro l hne
    refine List.filter_eq_nil_iff.2 fun d hd => ?_
    obtain ⟨m, hm, hd⟩ := List.mem_flatMap.1 hd
    simpa [node_of_mem_checkNode hd] using hne m hm
  rw [checkNodes, hnodes, List.flatMap_append, List.flatMap_cons, List.filter_append,
    List.filter_append, hself, hother before fun m hm => (hsorted.2.2 m hm n (by simp)).ne,
    hother after fun m hm => (hsorted.2.1.1 m hm).ne', List.nil_append, List.append_nil]

/-- The errors of a node of a known and described type are those of its string parameters. -/
theorem filter_isError_checkNode (htype : c.layerTypes.contains n.layerType = true)
    (husage : (c.usage.get? n.layerType).map Prod.snd = some text) :
    (c.checkNode n).filter Diagnostic.isError =
      (((LayerUsage.ofText text).stringParams.zip n.stringParams).flatMap
        fun (description, value) => c.checkStringParam n description value) := by
  have hfor : c.usageFor n.layerType = some (LayerUsage.ofText text) := by
    rw [usageFor, ← Option.map_some, ← husage, Option.map_map]
    rfl
  rw [checkNode, if_pos htype, hfor]
  dsimp only
  rw [List.filter_append, List.filter_eq_self.2, List.filter_eq_nil_iff.2, List.append_nil]
  · intro d hd
    obtain ⟨message, rfl⟩ := eq_warning_of_mem_checkFloatParams hd
    exact Bool.false_ne_true
  · intro d hd
    obtain ⟨pair, -, hd⟩ := List.mem_flatMap.1 hd
    exact isError_of_mem_checkStringParam hd

/-- A string parameter is checked against the description at its position; only descriptions that
are not blank count.  The errors about a node of a known and described type are the faults of its
string parameters, in the order of their positions. -/
theorem reports_faults (hlower : ∀ s, Text.LowercaseOf s (lower s)) (hn : g.node? id = some n)
    (htype : c.layerTypes.contains n.layerType = true)
    (husage : (c.usage.get? n.layerType).map Prod.snd = some text) :
    Reports ((c.checkNodes g).errors.filter fun d => d.node = some id)
      (c.Faulty lower (LayerUsage.descriptions text) n) := by
  have hdue : c.Faulty lower (LayerUsage.descriptions text) n = fun i d =>
      ∃ pair, ((LayerUsage.ofText text).stringParams.zip n.stringParams)[i]? = some pair ∧
        d ∈ c.checkStringParam n pair.1 pair.2 := by
    funext i d
    rw [Faulty, LayerUsage.stringParams_ofText]
    simp only [mem_checkStringParam_iff, lacks_iff hlower, List.getElem?_zip_eq_some]
    ext
    constructor
    · rintro ⟨description, value, what, hdescription, hvalue, ⟨names, hnames, hmissing⟩, rfl⟩
      exact ⟨(Text.trim description, value), ⟨by simp [hdescription], hvalue⟩, what, names, hnames,
        hmissing, rfl⟩
    · rintro ⟨⟨trimmed, value⟩, ⟨htrimmed, hvalue⟩, what, names, hnames, hmissing, rfl⟩
      rw [List.getElem?_map, Option.map_eq_some_iff] at htrimmed
      obtain ⟨description, hdescription, rfl⟩ := htrimmed
      exact ⟨description, value, what, hdescription, hvalue, ⟨names, hnames, hmissing⟩, rfl⟩
  rw [Report.errors, List.filter_comm, filter_diagnostics_checkNodes hn,
    filter_isError_checkNode htype husage, hdue]
  exact Reports.flatMap _ (fun _ => length_checkStringParam_le) _

/-- A layer with one string parameter. -/
def single : Node := { Node.new 0 "LayerDense" none default with stringParams := ["x"] }

/-- A network of this layer. -/
def alone : Graph :=
  (({} : Graph).createNode "LayerDense" default).1.editNode 0 { stringParams := some ["x"] }

/-- The second line begins with a piece that is blank. -/
def shifted : String := "d\n;activation"

/-- An engine that describes its only layer type in this way, and knows no activations. -/
def shifting : Capabilities where
  layerTypes := Keyed.ofList ["LayerDense"]
  usage := Keyed.ofList [("LayerDense", shifted)]

/-- The parameter is checked against the first description that is not blank. -/
theorem reports_faults_alone : (∀ s, Text.LowercaseOf s (Text.lower s)) ∧
    alone.Edited ∧ alone.node? 0 = some single ∧
    shifting.layerTypes.contains single.layerType = true ∧
    (shifting.usage.get? single.layerType).map Prod.snd = some shifted ∧
    ((shifting.checkNodes alone).errors.filter fun d => d.node = some 0) =
      [unavailable single "Activation" "x"] ∧
    Reports ((shifting.checkNodes alone).errors.filter fun d => d.node = some 0)
      (shifting.Faulty Text.lower (LayerUsage.descriptions shifted) single) :=
  ⟨Text.lowercaseOf_lower, .editNode _ _ (.createNode _ _ (.empty _)), rfl, by decide +kernel,
    by decide +kernel, by decide +kernel,
    reports_faults Text.lowercaseOf_lower rfl (by decide +kernel) (by decide +kernel)⟩

/-- If the blank piece had a position as well, it would be the description of the parameter, and
there would be nothing to report. -/
theorem not_reports_pieces : (∀ s, Text.LowercaseOf s (Text.lower s)) ∧
    alone.Edited ∧ alone.node? 0 = some single ∧
    shifting.layerTypes.contains single.layerType = true ∧
    (shifting.usage.get? single.layerType).map Prod.snd = some shifted ∧
    ¬Reports ((shifting.checkNodes alone).errors.filter fun d => d.node = some 0)
      (shifting.Faulty Text.lower (LayerUsage.pieces shifted) single) := by
  refine ⟨Text.lowercaseOf_lower, .editNode _ _ (.createNode _ _ (.empty _)), rfl,
    by decide +kernel, by decide +kernel, fun h => ?_⟩
  have hmem : unavailable single "Activation" "x" ∈
      (shifting.checkNodes alone).errors.filter fun d => d.node = some 0 := by decide +kernel
  obtain ⟨i, description, value, what, hdescription, hvalue, hlacks, -⟩ := h.exists_due hmem
  obtain rfl : i = 0 := by
    have hlength : i < [("x" : String)].length := (List.getElem?_eq_some_iff.1 hvalue).1
    simpa using hlength
  obtain rfl : description = "" := by
    have hblank : (LayerUsage.pieces shifted)[0]? = some "" := by decide +kernel
    exact Option.some.inj (hdescription.symm.trans hblank)
  cases hlacks with
  | activation h => exact absurd h (by decide +kernel)
  | initializer _ h => exact absurd h (by decide +kernel)
  | reduction _ _ h => exact absurd h (by decide +kernel)

end Capabilities

end LayerNet
