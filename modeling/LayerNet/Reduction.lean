import LayerNet.Json.Decode
import LayerNet.Text

/-!
# Reductions

A reduction says how the outputs of parallel branches become one value.
-/

namespace LayerNet

/-- How the outputs of parallel branches are combined. -/
inductive Reduction where
  | sum
  | average
  | concat
  /-- A reduction that only the engine knows, passed on by its name. -/
  | named (name : String)
  deriving DecidableEq, Repr

namespace Reduction

instance : Inhabited Reduction := ⟨concat⟩

/-- The name under which the engine knows the reduction. -/
def name : Reduction → String
  | sum => "sum"
  | average => "average"
  | concat => "concat"
  | named name => name

/-- The reduction that a name stands for: blanks at the ends and the case of ASCII letters do not
matter, and some names have a second spelling. -/
def ofName (name : String) : Reduction :=
  let trimmed := Text.trim name
  match trimmed.toLower with
  | "sum" => sum
  | "average" | "avg" | "mean" => average
  | "concat" | "concatenate" => concat
  | _ => named trimmed

/-! ## JSON -/

/-- A reduction is written as its name, or as an object with a name that only the engine knows. -/
def toJson : Reduction → Json
  | .sum => Json.ofString "sum"
  | .average => Json.ofString "average"
  | .concat => Json.ofString "concat"
  | .named name => Json.record [("named", Json.ofString name)]

/-- Reads a reduction; there are no second spellings. -/
def ofJson? (value : Json) : Option Reduction :=
  match value.tagged? with
  | some ("sum", .null) => some .sum
  | some ("average", .null) => some .average
  | some ("concat", .null) => some .concat
  | some ("named", name) => name.string?.map .named
  | _ => none

end Reduction

end LayerNet
