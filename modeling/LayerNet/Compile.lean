import LayerNet.Compile.Expansion
import LayerNet.Graph.Validation

/-!
# Compiling a network

A network whose structure is sound is expanded from its inputs on into a forest of layers.
-/

namespace LayerNet.Graph

/-- The forest of layers of a network. -/
def compile (g : Graph) (config : CompilerConfig) : Except CompileError (List Layer) :=
  let report := g.validate
  if report.hasErrors then .error (.invalidNetwork report)
  else match g.realInputs with
    | [] => .error .noInputs
    | inputs => ((g.expander config).heads g config inputs none).run' []

end LayerNet.Graph
