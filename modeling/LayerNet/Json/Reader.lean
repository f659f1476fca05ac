import LayerNet.Json.Value

/-!
# Reading JSON text

The grammar is strict: no comments, no trailing commas, no leading zeros, no control characters in
strings, and nothing but blanks around the value.

The recursion is bounded by a number of calls.  Each value and each element of a list takes at least
one character, so twice the length of the text is enough (`Json.parse?`).
-/

namespace LayerNet.Json

/-- Blanks between the parts of a text. -/
def isBlank (c : Char) : Bool := c = ' ' || c = '\t' || c = '\n' || c = '\r'

/-- A text from its first character on that is no blank. -/
def skipBlanks (cs : List Char) : List Char := cs.dropWhile isBlank

/-- A string literal up to its closing quote, and what follows. -/
def readString : List Char → Option (List Char × List Char)
  | [] => none
  | '"' :: rest => some ([], rest)
  | '\\' :: 'u' :: a :: b :: c :: d :: rest =>
    match hexUnit? a b c d with
    | none => none
    | some _ =>
      (readString rest).map fun (lit, rest) => ('\\' :: 'u' :: a :: b :: c :: d :: lit, rest)
  | '\\' :: c :: rest =>
    match simpleEscape? c with
    | none => none
    | some _ => (readString rest).map fun (lit, rest) => ('\\' :: c :: lit, rest)
  | c :: rest =>
    if c = '\\' || c.toNat < 0x20 then none
    else (readString rest).map fun (lit, rest) => (c :: lit, rest)

/-- The digits at the start of a text, and what follows; there has to be one. -/
def readDigits (cs : List Char) : Option (List Char × List Char) :=
  match cs.takeWhile Char.isDigit with
  | [] => none
  | ds => some (ds, cs.dropWhile Char.isDigit)

/-- The part of a number behind the point, if there is one. -/
def readFraction : List Char → Option (List Char × List Char)
  | '.' :: rest => readDigits rest
  | rest => some ([], rest)

/-- The exponent of a number, if there is one. -/
def readExponent (cs : List Char) : Option (Option Int × List Char) :=
  let digitsOf (negative : Bool) (rest : List Char) : Option (Option Int × List Char) :=
    (readDigits rest).map fun (ds, rest) =>
      let n := Int.ofNat (Decimal.ofDigits ds)
      (some (if negative then -n else n), rest)
  match cs with
  | 'e' :: rest | 'E' :: rest =>
    match rest with
    | '-' :: rest => digitsOf true rest
    | '+' :: rest => digitsOf false rest
    | rest => digitsOf false rest
  | rest => some (none, rest)

/-- A number, and what follows. -/
def readNumber (cs : List Char) : Option (Numeral × List Char) := do
  let (negative, cs) := match cs with
    | '-' :: rest => (true, rest)
    | rest => (false, rest)
  let (ds, cs) ← readDigits cs
  if ds.head? = some '0' ∧ ds ≠ ['0'] then none
  else
    let (fraction, cs) ← readFraction cs
    let (exponent, cs) ← readExponent cs
    some ({ negative, whole := Decimal.ofDigits ds, fraction, exponent }, cs)

mutual

/-- A value, and what follows, by at most `calls` nested calls. -/
def readValue : Nat → List Char → Option (Json × List Char)
  | 0, _ => none
  | calls + 1, cs =>
    match skipBlanks cs with
    | '{' :: rest =>
      match skipBlanks rest with
      | '}' :: rest => some (.object [], rest)
      | rest => (readMembers calls rest).map fun (members, rest) => (.object members, rest)
    | '[' :: rest =>
      match skipBlanks rest with
      | ']' :: rest => some (.array [], rest)
      | rest => (readItems calls rest).map fun (items, rest) => (.array items, rest)
    | '"' :: rest => (readString rest).map fun (lit, rest) => (.string lit, rest)
    | 'n' :: 'u' :: 'l' :: 'l' :: rest => some (.null, rest)
    | 't' :: 'r' :: 'u' :: 'e' :: rest => some (.bool true, rest)
    | 'f' :: 'a' :: 'l' :: 's' :: 'e' :: rest => some (.bool false, rest)
    | rest => (readNumber rest).map fun (n, rest) => (.number n, rest)

/-- The items of a list up to its closing bracket, at least one, and what follows. -/
def readItems : Nat → List Char → Option (List Json × List Char)
  | 0, _ => none
  | calls + 1, cs =>
    match readValue calls cs with
    | none => none
    | some (item, rest) =>
      match skipBlanks rest with
      | ']' :: rest => some ([item], rest)
      | ',' :: rest => (readItems calls rest).map fun (items, rest) => (item :: items, rest)
      | _ => none

/-- The members of an object up to its closing brace, at least one, and what follows. -/
def readMembers : Nat → List Char → Option (List (List Char × Json) × List Char)
  | 0, _ => none
  | calls + 1, cs =>
    match skipBlanks cs with
    | '"' :: rest =>
      match readString rest with
      | none => none
      | some (name, rest) =>
        match skipBlanks rest with
        | ':' :: rest =>
          match readValue calls rest with
          | none => none
          | some (value, rest) =>
            match skipBlanks rest with
            | '}' :: rest => some ([(name, value)], rest)
            | ',' :: rest =>
              (readMembers calls rest).map fun (members, rest) => ((name, value) :: members, rest)
            | _ => none
        | _ => none
    | _ => none

end

/-- The value that a text consists of. -/
def parseChars? (cs : List Char) : Option Json :=
  match readValue (2 * cs.length + 2) cs with
  | some (value, rest) => if skipBlanks rest = [] then some value else none
  | none => none

/-- The value that a text consists of. -/
def parse? (text : String) : Option Json := parseChars? text.toList

end LayerNet.Json
