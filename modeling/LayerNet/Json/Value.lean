import LayerNet.Number.Decimal

/-!
# JSON values

A value keeps what its text says: the members of an object in their order, repeated names included,
the digits of a number, and strings as they are written between their quotes.  What a string or a
number means is decided by who reads it (`Json.Decode`); a value that nobody reads may be out of
range or name half of a surrogate pair.
-/

namespace LayerNet

/-- A number as it is written. -/
structure Numeral where
  negative : Bool := false
  whole : Nat
  /-- The digits behind the point. -/
  fraction : List Char := []
  /-- The power of ten behind the letter e. -/
  exponent : Option Int := none
  deriving DecidableEq, Repr, Inhabited

/-- A JSON value. -/
inductive Json where
  | null
  | bool (b : Bool)
  | number (n : Numeral)
  /-- A string, given by what stands between the quotes. -/
  | string (literal : List Char)
  | array (items : List Json)
  /-- An object: the literals of the names, with their values. -/
  | object (members : List (List Char × Json))
  deriving Inhabited

namespace Json

/-! ## String literals -/

/-- The lower-case hexadecimal digit of a number below 16. -/
def hexDigit (n : Nat) : Char := Nat.digitChar n

/-- How a character is written between quotes.  Only quotes, backslashes and control characters are
escaped. -/
def escapeChar (c : Char) : List Char :=
  if c = '"' then ['\\', '"']
  else if c = '\\' then ['\\', '\\']
  else if c = '\x08' then ['\\', 'b']
  else if c = '\x0c' then ['\\', 'f']
  else if c = '\n' then ['\\', 'n']
  else if c = '\r' then ['\\', 'r']
  else if c = '\t' then ['\\', 't']
  else if c.toNat < 0x20 then
    ['\\', 'u', '0', '0', hexDigit (c.toNat / 16), hexDigit (c.toNat % 16)]
  else [c]

/-- How a text is written between quotes. -/
def escape (s : String) : List Char := s.toList.flatMap escapeChar

/-- The number that a hexadecimal digit stands for. -/
def hexValue? (c : Char) : Option Nat :=
  if '0' ≤ c ∧ c ≤ '9' then some (c.toNat - '0'.toNat)
  else if 'a' ≤ c ∧ c ≤ 'f' then some (c.toNat - 'a'.toNat + 10)
  else if 'A' ≤ c ∧ c ≤ 'F' then some (c.toNat - 'A'.toNat + 10)
  else none

/-- The number that four hexadecimal digits stand for. -/
def hexUnit? (a b c d : Char) : Option Nat := do
  let a ← hexValue? a
  let b ← hexValue? b
  let c ← hexValue? c
  let d ← hexValue? d
  return ((a * 16 + b) * 16 + c) * 16 + d

/-- The character that a letter behind a backslash stands for. -/
def simpleEscape? : Char → Option Char
  | '"' => some '"'
  | '\\' => some '\\'
  | '/' => some '/'
  | 'b' => some '\x08'
  | 'f' => some '\x0c'
  | 'n' => some '\n'
  | 'r' => some '\r'
  | 't' => some '\t'
  | _ => none

/-- The first half of a surrogate pair. -/
def isHighSurrogate (u : Nat) : Bool := 0xD800 ≤ u && u < 0xDC00

/-- The second half of a surrogate pair. -/
def isLowSurrogate (u : Nat) : Bool := 0xDC00 ≤ u && u < 0xE000

/-- The text that a string literal stands for.  Nothing if it names half of a surrogate pair without
the other half, or if it is no literal. -/
def unescape? : List Char → Option (List Char)
  | [] => some []
  | '\\' :: 'u' :: a :: b :: c :: d :: rest =>
    match hexUnit? a b c d with
    | none => none
    | some u =>
      if isHighSurrogate u then
        match rest with
        | '\\' :: 'u' :: a' :: b' :: c' :: d' :: rest' =>
          match hexUnit? a' b' c' d' with
          | none => none
          | some v =>
            if isLowSurrogate v then
              (unescape? rest').map
                (Char.ofNat (0x10000 + (u - 0xD800) * 0x400 + (v - 0xDC00)) :: ·)
            else none
        | _ => none
      else if isLowSurrogate u then none
      else (unescape? rest).map (Char.ofNat u :: ·)
  | '\\' :: c :: rest =>
    match simpleEscape? c with
    | none => none
    | some e => (unescape? rest).map (e :: ·)
  | c :: rest => if c = '\\' then none else (unescape? rest).map (c :: ·)

/-! ## Values that are written -/

/-- A text as a value. -/
def ofString (s : String) : Json := .string (escape s)

/-- A natural number as a value. -/
def ofNat (n : Nat) : Json := .number { whole := n }

/-- A list as a value. -/
def ofList {α : Type} (f : α → Json) (l : List α) : Json := .array (l.map f)

/-- An optional value; nothing is null. -/
def ofOption {α : Type} (f : α → Json) : Option α → Json
  | none => .null
  | some a => f a

/-- An object with the given members. -/
def record (members : List (String × Json)) : Json :=
  .object (members.map fun (name, value) => (escape name, value))

end Json

end LayerNet
