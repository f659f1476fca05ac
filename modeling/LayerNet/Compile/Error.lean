import LayerNet.Report

/-!
# Why a network is not compiled

A network with errors in its structure is refused.  A sound network may still have no tree form, for
instance because a branch feeds two merges; the refusal names the node at which this shows.
-/

namespace LayerNet

/-- What stands against a tree form at a node. -/
inductive Obstacle where
  /-- The node is reached by branches that do not belong to one group. -/
  | metApart
  /-- The inputs of the node do not arrive as the branches of one group. -/
  | ungroupedInputs (inputs : Nat)
  /-- A node of a branch feeds the end of the branch and other nodes besides. -/
  | continuesPast (label : String)
  /-- A branch splits before its end and does not come together again. -/
  | splitsBefore
  /-- A head of the group belongs to another group already. -/
  | feedsAnotherMerge (label : String)
  /-- The merging node ends two groups. -/
  | closesTwice
  /-- Not all inputs of the node arrive as branches of the group. -/
  | partialGroup (arrived expected : Nat)
  deriving DecidableEq, Repr

/-- The wording of an obstacle. -/
def Obstacle.message : Obstacle → String
  | metApart => "reached by branches that never meet in one group"
  | ungroupedInputs inputs => s!"its {inputs} inputs do not arrive as one parallel group"
  | continuesPast label => s!"{label} feeds it and continues past it"
  | splitsBefore => "a branch into it splits before reaching it"
  | feedsAnotherMerge label => s!"{label} also feeds another merge"
  | closesTwice => "closes two separate parallel groups"
  | partialGroup arrived expected =>
    s!"{arrived} of its {expected} inputs arrive as parallel branches"

/-- Why a network is not compiled. -/
inductive CompileError where
  /-- The structure of the network has errors. -/
  | invalidNetwork (report : Report)
  | noInputs
  /-- The network has no tree form. -/
  | unsupported (node : NodeId) (obstacle : Obstacle)
  deriving DecidableEq, Repr

/-- The wording of a refusal. -/
def CompileError.message : CompileError → String
  | invalidNetwork report => s!"Invalid network structure: {report.summary}"
  | noInputs => "Network has no input nodes"
  | unsupported node obstacle =>
    s!"Network topology at node #{node} cannot be expressed as a layer tree: {obstacle.message}"

end LayerNet
