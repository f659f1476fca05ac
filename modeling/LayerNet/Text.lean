/-!
# Text

What the other modules need to know about text: which characters are blank, how a text is
trimmed, cut at a separator, searched and indented.  Everything is defined on lists of characters;
the functions on `String` are their images.
-/

namespace LayerNet.Text

/-- The characters with the Unicode property `White_Space`. -/
def isBlank (c : Char) : Bool :=
  let n := c.toNat
  (9 ≤ n && n ≤ 13) || n == 0x20 || n == 0x85 || n == 0xA0 || n == 0x1680 ||
    (0x2000 ≤ n && n ≤ 0x200A) || n == 0x2028 || n == 0x2029 || n == 0x202F || n == 0x205F ||
    n == 0x3000

/-- A list of characters without the blanks at both ends. -/
def trimChars (s : List Char) : List Char :=
  ((s.dropWhile isBlank).reverse.dropWhile isBlank).reverse

/-- A text without the blanks at both ends. -/
def trim (s : String) : String := String.ofList (trimChars s.toList)

/-- The pieces between the separators; one more than there are separators. -/
def cutChars (sep : Char) : List Char → List (List Char)
  | [] => [[]]
  | c :: rest =>
    if c = sep then [] :: cutChars sep rest
    else match cutChars sep rest with
      | [] => [[c]]
      | piece :: pieces => (c :: piece) :: pieces

/-- The pieces of a text between the separators. -/
def cut (sep : Char) (s : String) : List String := (cutChars sep s.toList).map String.ofList

/-- Whether `part` occurs in a list of characters. -/
def occursIn (part : List Char) : List Char → Bool
  | [] => part.isEmpty
  | c :: rest => part.isPrefixOf (c :: rest) || occursIn part rest

/-- Whether the word `part` occurs in `s`, whose capitals A to Z count as small letters.  Of all
other characters only the Kelvin sign and the dotted capital I have a lower-case form with an ASCII
letter in it, `k` and `i` with a combining dot behind it, so for a word without `k` that does not
end in `i` this is also the answer under full case folding. -/
def mentions (part s : String) : Bool := occursIn part.toList (s.toList.map Char.toLower)

/-- Texts with `sep` between neighbours. -/
def join (sep : String) : List String → String
  | [] => ""
  | [s] => s
  | s :: rest => s ++ sep ++ join sep rest

/-- A text whose lines are indented by `width` spaces, but for the first. -/
def indentLines (width : Nat) (s : String) : String :=
  String.ofList (s.toList.flatMap fun c =>
    if c = '\n' then '\n' :: List.replicate width ' ' else [c])

end LayerNet.Text
