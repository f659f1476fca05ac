/-!
# Control sequences

Control sequences tell a terminal what to do instead of what to show.  They start with the escape
character and end where their grammar says so; a text for a log is written without them, and without
the control characters that are no white space (`Terminal.strip`).

White space inside a sequence is shown, and with it what follows up to the next control character;
there the sequence goes on.  Characters beyond ASCII have no place in a sequence and are dropped
from it.  Strings inside a sequence end with the byte 9C, be it a part of such a character.
-/

namespace LayerNet.Terminal

/-- What a text is in the middle of. -/
inductive Mode where
  /-- Text that is shown. -/
  | text
  /-- A sequence of which only the escape character is known. -/
  | escape
  /-- A sequence with a space or a punctuation mark behind the escape character. -/
  | escapeMarks
  /-- A sequence with parameters, up to its final letter. -/
  | parameters
  /-- A device control string before its parameters. -/
  | deviceStart
  /-- The parameters of a device control string. -/
  | deviceParameters
  /-- The spaces and punctuation marks behind these parameters. -/
  | deviceMarks
  /-- A string that ends with the byte 9C. -/
  | string
  /-- A command for the system that the terminal runs on, up to the bell character. -/
  | command
  deriving DecidableEq, Repr

/-- White space among the control characters. -/
def isSpacing (c : Char) : Bool := c = '\t' || c = '\n' || c = '\x0c' || c = '\r'

/-- The characters of ASCII that are shown. -/
def isShown (c : Char) : Bool := isSpacing c || (' ' ≤ c && c ≤ '~')

/-- The characters between the escape character, the parameters and the end of a sequence. -/
def isMark (c : Char) : Bool := ' ' ≤ c && c ≤ '/'

/-- The characters that end a sequence without parameters. -/
def isFinal (c : Char) : Bool := '0' ≤ c && c ≤ '~'

/-- The characters that end parameters. -/
def isLetter (c : Char) : Bool := '@' ≤ c && c ≤ '~'

/-- Whether the byte 9C is among the bytes of a character. -/
def endsString (c : Char) : Bool := (String.utf8EncodeChar c).contains 0x9C

/-- The mode behind a character inside a sequence.  The escape character starts a new sequence from
everywhere; the characters to cancel and to substitute break one off. -/
def Mode.next (m : Mode) (c : Char) : Mode :=
  if c = '\x1b' then .escape
  else if c = '\x18' || c = '\x1a' then .text
  else match m with
    | .text => .text
    | .escape =>
      if c = '[' then .parameters
      else if c = ']' then .command
      else if c = 'P' then .deviceStart
      else if c = 'X' || c = '^' || c = '_' then .string
      else if isMark c then .escapeMarks
      else if isFinal c then .text
      else .escape
    | .escapeMarks => if isFinal c then .text else .escapeMarks
    | .parameters => if isLetter c then .text else .parameters
    | .deviceStart =>
      if isMark c then .deviceMarks
      else if isLetter c then .string
      else if isFinal c then .deviceParameters
      else .deviceStart
    | .deviceParameters =>
      if isMark c then .deviceMarks
      else if '<' ≤ c && c ≤ '~' then .string
      else .deviceParameters
    | .deviceMarks => if isFinal c then .string else .deviceMarks
    | .string => if endsString c then .text else .string
    | .command => if c = '\x07' then .text else .command

/-- Whether white space inside a sequence is shown: not in its strings. -/
def Mode.showsSpacing : Mode → Bool
  | .text | .escape | .escapeMarks | .parameters => true
  | _ => false

/-- How a text is read: what it is in the middle of, and whether this is suspended and text is
shown. -/
structure State where
  mode : Mode := .text
  suspended : Bool := false
  deriving DecidableEq, Repr, Inhabited

/-- Whether a character is shown, and the state behind it. -/
def State.step (s : State) (c : Char) : Bool × State :=
  if s.mode = .text || s.suspended then
    if isShown c then (true, s)
    else if 0x80 ≤ c.toNat then (true, {})
    else (false, ⟨s.mode.next c, false⟩)
  else if isSpacing c && s.mode.showsSpacing then (true, { s with suspended := true })
  else (false, ⟨s.mode.next c, false⟩)

/-- The characters that are shown of a text in a given state. -/
def stripFrom (s : State) : List Char → List Char
  | [] => []
  | c :: cs =>
    let (shown, s) := s.step c
    if shown then c :: stripFrom s cs else stripFrom s cs

/-- A text without control sequences and control characters that are no white space. -/
def strip (text : String) : String := String.ofList (stripFrom {} text.toList)

end LayerNet.Terminal
