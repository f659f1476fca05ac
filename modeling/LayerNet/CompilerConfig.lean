import LayerNet.Reduction

/-!
# Configuration of the compiler

The only choice is the reduction of groups whose nodes do not declare one.
-/

namespace LayerNet

/-- What the compiler is told besides the network. -/
structure CompilerConfig where
  /-- The reduction of branches that end apart or meet at a node that declares none. -/
  defaultReduction : Reduction := .concat
  deriving DecidableEq, Repr, Inhabited

namespace CompilerConfig

/-- Writes a configuration. -/
def toJson (c : CompilerConfig) : Json :=
  Json.record [("default_reduction", c.defaultReduction.toJson)]

/-- Reads a configuration. -/
def ofJson? (value : Json) : Option CompilerConfig := do
  let fields ← value.fields? ["default_reduction"]
  let reduction ← fields.default? "default_reduction" Reduction.ofJson? .concat
  return ⟨reduction⟩

/-- Reads the text of a configuration. -/
def parse? : String → Option CompilerConfig := Json.decode? ofJson?

end CompilerConfig

end LayerNet
