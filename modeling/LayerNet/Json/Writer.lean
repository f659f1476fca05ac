import LayerNet.Json.Value

/-!
# Writing JSON text

There are two layouts.  The compact one has no blanks.  The pretty one puts each item and each
member on a line of its own, two blanks further to the right than the list or object around it;
empty lists and objects stay on their line.
-/

namespace LayerNet

/-- The text of a number. -/
def Numeral.chars (n : Numeral) : List Char :=
  (if n.negative then ['-'] else []) ++ Decimal.digits n.whole ++
    (if n.fraction.isEmpty then [] else '.' :: n.fraction) ++
    match n.exponent with
    | none => []
    | some e => 'e' :: (if e < 0 then '-' else '+') :: Decimal.digits e.natAbs

namespace Json

/-- A string literal with its quotes. -/
def quoted (literal : List Char) : List Char := '"' :: (literal ++ ['"'])

/-- Parts with a separator between neighbours. -/
def separated (sep : List Char) : List (List Char) → List Char
  | [] => []
  | [part] => part
  | part :: parts => part ++ sep ++ separated sep parts

mutual

/-- The compact text of a value. -/
def compactChars : Json → List Char
  | .null => ['n', 'u', 'l', 'l']
  | .bool true => ['t', 'r', 'u', 'e']
  | .bool false => ['f', 'a', 'l', 's', 'e']
  | .number n => n.chars
  | .string lit => quoted lit
  | .array items => '[' :: (separated [','] (compactItems items) ++ [']'])
  | .object members => '\x7b' :: (separated [','] (compactMembers members) ++ ['\x7d'])

/-- The compact texts of the items of a list. -/
def compactItems : List Json → List (List Char)
  | [] => []
  | item :: items => compactChars item :: compactItems items

/-- The compact texts of the members of an object. -/
def compactMembers : List (List Char × Json) → List (List Char)
  | [] => []
  | (name, value) :: members =>
    (quoted name ++ ':' :: compactChars value) :: compactMembers members

end

/-- A new line that is indented `depth` times. -/
def newLine (depth : Nat) : List Char := '\n' :: List.replicate (2 * depth) ' '

/-- Parts between an opening and a closing character, each on a line of its own. -/
def block (opening closing : Char) (depth : Nat) : List (List Char) → List Char
  | [] => [opening, closing]
  | parts => opening :: (newLine (depth + 1) ++ separated (',' :: newLine (depth + 1)) parts ++
      newLine depth ++ [closing])

mutual

/-- The pretty text of a value that stands in `depth` lists and objects. -/
def prettyChars (depth : Nat) : Json → List Char
  | .null => ['n', 'u', 'l', 'l']
  | .bool true => ['t', 'r', 'u', 'e']
  | .bool false => ['f', 'a', 'l', 's', 'e']
  | .number n => n.chars
  | .string lit => quoted lit
  | .array items => block '[' ']' depth (prettyItems (depth + 1) items)
  | .object members => block '\x7b' '\x7d' depth (prettyMembers (depth + 1) members)

/-- The pretty texts of the items of a list. -/
def prettyItems (depth : Nat) : List Json → List (List Char)
  | [] => []
  | item :: items => prettyChars depth item :: prettyItems depth items

/-- The pretty texts of the members of an object. -/
def prettyMembers (depth : Nat) : List (List Char × Json) → List (List Char)
  | [] => []
  | (name, value) :: members =>
    (quoted name ++ ':' :: ' ' :: prettyChars depth value) :: prettyMembers depth members

end

/-- The compact text of a value. -/
def compact (value : Json) : String := String.ofList value.compactChars

/-- The pretty text of a value. -/
def pretty (value : Json) : String := String.ofList (prettyChars 0 value)

end Json

end LayerNet
