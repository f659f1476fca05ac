import LayerNet.Catalog
import LayerNet.Json.Single
import LayerNet.Json.Writer

/-!
# Layer trees

A compiled network is a forest of layers.  A layer stands for a node, followed by the layers it
feeds; or it is a sequence of layers; or it is a group of parallel branches, whose outputs are
combined.  The layer of a special node holds its subgraph besides, with the wiring of its auxiliary
ports.
-/

namespace LayerNet

/-- A wire between an auxiliary port of a special node and a node of its subgraph. -/
structure AuxLink where
  /-- The number of the port. -/
  port : Nat
  role : AuxRole
  /-- The node at the other end. -/
  node : NodeId
  deriving DecidableEq, Repr

/-- What a layer takes over from its node. -/
structure LayerNode where
  id : NodeId
  layerType : String
  floatParams : List Float32 := []
  stringParams : List String := []
  deriving DecidableEq

/-- A layer with what follows it or runs inside it. -/
inductive Layer where
  /-- The layer of a node: the layers of its subgraph, the wiring of its auxiliary ports, and the
  layers that follow it. -/
  | node (source : LayerNode) (inner : List Layer) (links : List AuxLink) (children : List Layer)
  /-- Layers one after the other; without any, the value passes unchanged. -/
  | sequence (steps : List Layer)
  /-- Branches side by side.  If they meet at a merging node, the group stands for this node. -/
  | parallel (reduction : Reduction) (merge : Option NodeId) (branches : List Layer)
  deriving Inhabited

namespace Layer

/-- The node that the layer stands for. -/
def source? : Layer → Option NodeId
  | node source _ _ _ => some source.id
  | _ => none

/-- The reduction of a group. -/
def reduction? : Layer → Option Reduction
  | parallel reduction _ _ => some reduction
  | _ => none

/-- The layers of the subgraph of a special node. -/
def inner : Layer → List Layer
  | node _ inner _ _ => inner
  | _ => []

/-- The wiring of the auxiliary ports of a special node. -/
def links : Layer → List AuxLink
  | node _ _ links _ => links
  | _ => []

/-- A wiring in the place of the one that the layer has.  Only layers of nodes have one. -/
def withLinks (links : List AuxLink) : Layer → Layer
  | node source inner _ children => node source inner links children
  | other => other

/-! ## The nodes of a tree -/

mutual

/-- The nodes that have layers in a tree: first the layer itself, then its subgraph, then what
follows or runs in parallel. -/
def nodeIds : Layer → List NodeId
  | node source inner _ children => source.id :: (forestNodeIds inner ++ forestNodeIds children)
  | sequence steps => forestNodeIds steps
  | parallel _ _ branches => forestNodeIds branches

/-- The nodes that have layers in a forest. -/
def forestNodeIds : List Layer → List NodeId
  | [] => []
  | layer :: layers => nodeIds layer ++ forestNodeIds layers

end

/-! ## Trees as indented lines -/

/-- The line of a group. -/
def groupText (reduction : Reduction) : Option NodeId → String
  | none => s!"parallel({reduction.name})"
  | some merge => s!"parallel({reduction.name}) -> #{merge}"

/-- The line of a wire. -/
def linkText (link : AuxLink) : String :=
  s!"{link.role.title} port {link.port} <-> #{link.node}"

/-- A line at the given depth; each level is indented by two blanks. -/
def line (depth : Nat) (text : String) : String :=
  String.ofList (List.replicate (2 * depth) ' ') ++ text ++ "\n"

mutual

/-- The lines of a tree.  The wiring is shown with the subgraph, two levels further in. -/
def textAt (depth : Nat) : Layer → String
  | node source inner links children =>
    line depth s!"{source.layerType} #{source.id}" ++
      (if inner.isEmpty then ""
        else line (depth + 1) "[inner]" ++
          String.join (links.map fun link => line (depth + 2) (linkText link)) ++
          forestTextAt (depth + 2) inner) ++
      forestTextAt (depth + 1) children
  | sequence steps => line depth "sequential" ++ forestTextAt (depth + 1) steps
  | parallel reduction merge branches =>
    line depth (groupText reduction merge) ++ forestTextAt (depth + 1) branches

/-- The lines of a forest. -/
def forestTextAt (depth : Nat) : List Layer → String
  | [] => ""
  | layer :: layers => textAt depth layer ++ forestTextAt depth layers

end

/-- The lines of a tree. -/
def text (layer : Layer) : String := textAt 0 layer

/-! ## Trees in JSON -/

/-- A wire in JSON. -/
def linkJson (link : AuxLink) : Json :=
  Json.record [("port", Json.ofNat link.port), ("role", Json.ofString link.role.tag),
    ("node", Json.ofNat link.node)]

mutual

/-- A tree in JSON. -/
def toJson : Layer → Json
  | node source inner links children =>
    Json.record
      [("layer_type", Json.ofString source.layerType), ("kind", Json.ofString "layer"),
        ("node", Json.ofNat source.id),
        ("float_params", Json.ofList Single.toJson source.floatParams),
        ("string_params", Json.ofList Json.ofString source.stringParams),
        ("inner", .array (forestJson inner)), ("aux_links", Json.ofList linkJson links),
        ("children", .array (forestJson children))]
  | sequence steps =>
    Json.record [("layer_type", Json.ofString "sequential"), ("kind", Json.ofString "sequential"),
      ("children", .array (forestJson steps))]
  | parallel reduction merge branches =>
    Json.record [("layer_type", Json.ofString "parallel"), ("kind", Json.ofString "parallel"),
      ("reduction", reduction.toJson), ("merge_node", Json.ofOption Json.ofNat merge),
      ("children", .array (forestJson branches))]

/-- The trees of a forest in JSON. -/
def forestJson : List Layer → List Json
  | [] => []
  | layer :: layers => toJson layer :: forestJson layers

end

end Layer

end LayerNet
