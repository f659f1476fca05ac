import LayerNet.Port

/-!
# Special nodes

A special node owns a subgraph.  Its auxiliary outputs feed the subgraph and its auxiliary inputs
read from it; which ports there are is fixed by the kind of the node.
-/

namespace LayerNet

/-- What an auxiliary port is for. -/
inductive AuxRole where
  /-- The output of the previous time step, fed back into the subgraph. -/
  | feedback
  /-- The entry of the subgraph. -/
  | entry
  /-- The exit of the subgraph. -/
  | exit
  /-- The weights of the experts of a router. -/
  | expertWeights
  /-- The experts of a router. -/
  | experts
  deriving DecidableEq, Repr, Inhabited

/-- The name of a role in a printed tree. -/
def AuxRole.title : AuxRole → String
  | .feedback => "Feedback"
  | .entry => "Mirror"
  | .exit => "Pass"
  | .expertWeights => "ExpertWeights"
  | .experts => "Experts"

/-- The name of a role in JSON. -/
def AuxRole.tag : AuxRole → String
  | .feedback => "feedback"
  | .entry => "mirror"
  | .exit => "pass"
  | .expertWeights => "expert_weights"
  | .experts => "experts"

/-- What is fixed about an auxiliary port. -/
structure AuxPort where
  name : String
  direction : Direction
  role : AuxRole
  deriving DecidableEq, Repr

/-- The kinds of special nodes. -/
inductive SpecialKind where
  | recurrent
  | stacked
  | repetitive
  | router
  deriving DecidableEq, Repr, Inhabited

namespace SpecialKind

/-- The name of a kind. -/
def name : SpecialKind → String
  | .recurrent => "Recurrent"
  | .stacked => "Stacked"
  | .repetitive => "Repetitive"
  | .router => "Router"

/-- The port that feeds a subgraph. -/
def entryPort : AuxPort := ⟨"IN mirror", .output, .entry⟩

/-- The port that reads from a subgraph. -/
def exitPort : AuxPort := ⟨"OUT pass", .input, .exit⟩

/-- The auxiliary ports of a kind, in the order of their numbers. -/
def layout : SpecialKind → List AuxPort
  | .recurrent => [⟨"OUT t-1", .output, .feedback⟩, entryPort, exitPort]
  | .stacked => [entryPort, exitPort]
  | .repetitive => [entryPort, exitPort]
  | .router =>
    [entryPort, ⟨"experts weight", .input, .expertWeights⟩, ⟨"experts", .input, .experts⟩]

end SpecialKind

/-- The auxiliary ports of a node; a node that is not special has none. -/
def auxLayout : Option SpecialKind → List AuxPort
  | none => []
  | some kind => kind.layout

end LayerNet
