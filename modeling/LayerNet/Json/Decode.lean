import LayerNet.Json.Reader
import LayerNet.Json.Single

/-!
# Reading records and lists off JSON values

A record is an object whose members are its fields in any order, or a list of its fields in their
fixed order.  Members with other names are skipped, whatever their values are, but no field may
occur twice.  A field that may be left out has a default value; in a list only fields at the end can
be left out.
-/

namespace LayerNet

namespace Json

/-! ## Simple values -/

/-- The text that a value is. -/
def string? : Json → Option String
  | .string lit => (unescape? lit).map String.ofList
  | _ => none

/-- The truth value that a value is. -/
def bool? : Json → Option Bool
  | .bool b => some b
  | _ => none

/-- The natural number up to `limit` that a value is.  Only plain integers are natural numbers. -/
def natural? (limit : Nat) : Json → Option Nat
  | .number n =>
    if !n.negative && n.fraction.isEmpty && n.exponent.isNone && n.whole ≤ limit then some n.whole
    else none
  | _ => none

/-- The natural number of 64 bits that a value is. -/
def word64? : Json → Option Nat := natural? (Nat.pow 2 64 - 1)

/-- The natural number of 32 bits that a value is. -/
def word32? : Json → Option Nat := natural? (Nat.pow 2 32 - 1)

/-- The number of 32 bits that a value is. -/
def single? : Json → Option Float32
  | .number n => n.single?
  | _ => none

/-- The list that a value is. -/
def list? {α : Type} (item? : Json → Option α) : Json → Option (List α)
  | .array items => items.mapM item?
  | _ => none

/-- A value that may be null. -/
def nullable? {α : Type} (value? : Json → Option α) : Json → Option (Option α)
  | .null => some none
  | value => (value? value).map some

/-- An alternative: its tag alone, or an object with the tag as its only name. -/
def tagged? : Json → Option (String × Json)
  | .string lit => (unescape? lit).map fun tag => (String.ofList tag, .null)
  | .object [(lit, value)] => (unescape? lit).map fun tag => (String.ofList tag, value)
  | _ => none

/-- An object with its names as texts. -/
def members? : Json → Option (List (String × Json))
  | .object members => members.mapM fun (lit, value) =>
      (unescape? lit).map fun name => (String.ofList name, value)
  | _ => none

/-! ## Records -/

/-- The fields that are given for a record. -/
structure Fields where
  /-- Whether they are given by their positions. -/
  positional : Bool
  values : List (String × Json)

/-- The fields of a record with the given field names. -/
def fields? (names : List String) : Json → Option Fields
  | .array items =>
    if items.length ≤ names.length then some ⟨true, names.zip items⟩ else none
  | value => do
    let members ← value.members?
    let known := members.filter fun m => m.1 ∈ names
    if (known.map Prod.fst).Nodup then some ⟨false, known⟩ else none

namespace Fields

variable {α : Type}

/-- A field that has to be given. -/
def required? (fields : Fields) (name : String) (value? : Json → Option α) : Option α :=
  (fields.values.lookup name).bind value?

/-- A field that may be left out. -/
def default? (fields : Fields) (name : String) (value? : Json → Option α) (default : α) :
    Option α :=
  match fields.values.lookup name with
  | none => some default
  | some value => value? value

/-- A field that may be null, and that may be left out where fields go by their names. -/
def nullable? (fields : Fields) (name : String) (value? : Json → Option α) : Option (Option α) :=
  match fields.values.lookup name with
  | none => if fields.positional then none else some none
  | some value => Json.nullable? value? value

end Fields

end Json

/-- What a text is read as by a reader of values; nothing if it is not JSON or not such a value. -/
def Json.decode? {α : Type} (value? : Json → Option α) (text : String) : Option α :=
  (Json.parse? text).bind value?

end LayerNet
