import LayerNet.Graph
import LayerNet.TrainSettings

/-!
# What an engine offers

An engine lists the names it knows, and for its layer types it may describe the parameters.  A
network and its training settings are checked against these lists before anything is built.

The description of a layer type is a text of up to three lines: what the type is for, its string
parameters and its numeric parameters, both cut at semicolons.
-/

namespace LayerNet

/-- The description of a layer type. -/
structure LayerUsage where
  description : String
  stringParams : List String
  /-- The numeric parameters, if the text has a line for them. -/
  floatParams : Option (List String)
  deriving DecidableEq, Repr

namespace LayerUsage

/-- The descriptions of parameters in one line; empty ones do not count. -/
def cutDescriptions (line : String) : List String :=
  ((Text.cut ';' line).map Text.trim).filter fun s => s ≠ ""

/-- Reads the description of a layer type. -/
def ofText (text : String) : LayerUsage :=
  let lines := Text.cut '\n' text
  { description := Text.trim ((lines[0]?).getD "")
    stringParams := ((lines[1]?).map cutDescriptions).getD []
    floatParams := (lines[2]?).map cutDescriptions }

end LayerUsage

/-- The names that an engine knows, and the texts on its layer types. -/
structure Capabilities where
  layerTypes : NameSet := Keyed.empty
  activations : NameSet := Keyed.empty
  initializers : NameSet := Keyed.empty
  reductions : NameSet := Keyed.empty
  losses : NameSet := Keyed.empty
  optimizers : NameSet := Keyed.empty
  regularizers : NameSet := Keyed.empty
  /-- The texts, by layer type. -/
  usage : Keyed (Prod.fst : String × String → String) := Keyed.empty
  deriving DecidableEq, Inhabited

namespace Capabilities

/-- The description of a layer type. -/
def usageFor (c : Capabilities) (layerType : String) : Option LayerUsage :=
  (c.usage.get? layerType).map fun entry => LayerUsage.ofText entry.2

/-! ## Checks -/

/-- What a string parameter has to name, by its description, with the names that are offered. -/
def vocabulary? (c : Capabilities) (description : String) : Option (String × NameSet) :=
  if Text.mentions "activation" description then some ("Activation", c.activations)
  else if Text.mentions "initializer" description then some ("Initializer", c.initializers)
  else if Text.mentions "reduction" description then some ("Reduction", c.reductions)
  else none

/-- The check of one string parameter against its description. -/
def checkStringParam (c : Capabilities) (n : Node) (description value : String) :
    List Diagnostic :=
  match c.vocabulary? description with
  | none => []
  | some (what, names) =>
    if names.contains value then []
    else [.error s!"{what} '{value}' is not available for layer '{n.layerType}'" (some n.id)]

/-- The check of the number of numeric parameters. -/
def checkFloatParams (usage : LayerUsage) (n : Node) : List Diagnostic :=
  match usage.floatParams with
  | none => []
  | some expected =>
    let given := n.floatParams.length
    let wanted := expected.length
    if wanted = given then []
    else
      [.warning s!"Layer '{n.layerType}' has {given} numeric parameters but expects {wanted}"
        (some n.id)]

/-- The check of one node. -/
def checkNode (c : Capabilities) (n : Node) : List Diagnostic :=
  if c.layerTypes.contains n.layerType then
    match c.usageFor n.layerType with
    | none => []
    | some usage =>
      ((usage.stringParams.zip n.stringParams).flatMap fun (description, value) =>
        c.checkStringParam n description value) ++ checkFloatParams usage n
  else [.error s!"Layer type '{n.layerType}' is not available" (some n.id)]

/-- The check of all nodes of a graph. -/
def checkNodes (c : Capabilities) (g : Graph) : Report :=
  ⟨g.nodes.toList.flatMap c.checkNode⟩

/-- An error unless a name is offered. -/
def checkName (what name : String) (names : NameSet) : List Diagnostic :=
  if names.contains name then [] else [.error s!"{what} '{name}' is not available" none]

/-- The check of training settings. -/
def checkTrainSettings (c : Capabilities) (s : TrainSettings) : Report :=
  ⟨checkName "Loss function" s.loss c.losses ++
    checkName "Optimizer" s.optimizer c.optimizers ++
    if s.hasRegularizer then checkName "Regularizer" s.regularizer c.regularizers else []⟩

/-! ## JSON -/

/-- The names of the fields. -/
def fieldNames : List String :=
  ["layer_types", "activations", "initializers", "reductions", "losses", "optimizers",
    "regularizers", "usage"]

/-- Names in their order. -/
def namesJson (names : NameSet) : Json := Json.ofList Json.ofString names.toList

/-- Writes capabilities. -/
def toJson (c : Capabilities) : Json :=
  Json.record
    [("layer_types", namesJson c.layerTypes), ("activations", namesJson c.activations),
      ("initializers", namesJson c.initializers), ("reductions", namesJson c.reductions),
      ("losses", namesJson c.losses), ("optimizers", namesJson c.optimizers),
      ("regularizers", namesJson c.regularizers),
      ("usage", Json.record (c.usage.toList.map fun (name, text) => (name, Json.ofString text)))]

/-- Reads a set of names, given in any order. -/
def names? (value : Json) : Option NameSet := (value.list? Json.string?).map Keyed.ofList

/-- Reads the texts on layer types; of two texts on one type the later one counts. -/
def usage? (value : Json) : Option (Keyed (Prod.fst : String × String → String)) := do
  let members ← value.members?
  let entries ← members.mapM fun (name, value) => value.string?.map fun text => (name, text)
  return Keyed.ofList entries

/-- Reads capabilities; lists that are left out are empty. -/
def ofJson? (value : Json) : Option Capabilities := do
  let fields ← value.fields? fieldNames
  return {
    layerTypes := ← fields.default? "layer_types" names? Keyed.empty
    activations := ← fields.default? "activations" names? Keyed.empty
    initializers := ← fields.default? "initializers" names? Keyed.empty
    reductions := ← fields.default? "reductions" names? Keyed.empty
    losses := ← fields.default? "losses" names? Keyed.empty
    optimizers := ← fields.default? "optimizers" names? Keyed.empty
    regularizers := ← fields.default? "regularizers" names? Keyed.empty
    usage := ← fields.default? "usage" usage? Keyed.empty }

/-- Reads the text of capabilities. -/
def parse? : String → Option Capabilities := Json.decode? ofJson?

end Capabilities

end LayerNet
