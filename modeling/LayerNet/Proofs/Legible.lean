import LayerNet.Json.Reader
import LayerNet.Json.Writer
import Mathlib.Data.List.DropRight
import Mathlib.Data.List.Forall2

/-!
# Written JSON can be read

A value is *legible* if its numerals have nothing but digits behind the point and its literals are
escaped the way the reader accepts them; every value that the program writes is.  The text of a
legible value is read as that value, in both layouts:

* digits, numbers and literals are read up to where they end (`readNumber_chars`, `Literal`);
* a text *spells* a value if the reader takes exactly this text for the value wherever it stands
  (`Spells`); brackets around items that are spelled spell a list, braces an object, whatever blanks
  stand between them (`Spells.array`, `Spells.object`);
* by induction on the value, both of its texts spell it (`Legible.spells_pretty`,
  `Legible.spells_compact`).

A text of `n` characters is read with `2 * n` calls, which is what `parse?` allows.
-/

namespace LayerNet

/-! ## Digits -/

namespace Decimal

@[simp]
theorem ofDigits_digits (n : Nat) : ofDigits (digits n) = n :=
  Nat.ofDigitChars_ten_toDigits

@[simp]
theorem digits_ne_nil (n : Nat) : digits n ≠ [] :=
  Nat.toDigits_ne_nil

theorem isDigit_of_mem_digits {n : Nat} {c : Char} (h : c ∈ digits n) : c.isDigit :=
  Nat.isDigit_of_mem_toDigits (by decide) (by decide) h

theorem exists_digits_eq_cons (n : Nat) : ∃ d ds, digits n = d :: ds ∧ d.isDigit := by
  obtain ⟨d, ds, h⟩ := List.exists_cons_of_ne_nil (digits_ne_nil n)
  exact ⟨d, ds, h, isDigit_of_mem_digits (n := n) (by simp [h])⟩

/-- Only zero starts with the digit zero. -/
theorem eq_zero_of_head?_digits {n : Nat} (h : (digits n).head? = some '0') : n = 0 := by
  induction n using Nat.strongRecOn with
  | _ n ih =>
    rw [digits, Nat.toDigits_eq_if (by decide)] at h
    split at h
    case isTrue small => simpa using h
    case isFalse large =>
      have := ih (n / 10) (by omega)
        (by rwa [List.head?_append_of_ne_nil _ Nat.toDigits_ne_nil] at h)
      omega

end Decimal

namespace Json

/-- A text that does not go on with the digits in front of it. -/
def NoDigit (cs : List Char) : Prop := ∀ c, cs.head? = some c → c.isDigit = false

theorem readDigits_append {ds rest : List Char} (hne : ds ≠ []) (hds : ∀ c ∈ ds, c.isDigit)
    (hrest : NoDigit rest) : readDigits (ds ++ rest) = some (ds, rest) := by
  have htake : rest.takeWhile Char.isDigit = [] := by
    cases rest with
    | nil => rfl
    | cons c rest => simp [List.takeWhile, hrest c rfl]
  have hdrop : rest.dropWhile Char.isDigit = rest := by
    cases rest with
    | nil => rfl
    | cons c rest => simp [List.dropWhile, hrest c rfl]
  rw [readDigits, List.takeWhile_append_of_pos hds, List.dropWhile_append_of_pos hds, htake, hdrop,
    List.append_nil]
  cases ds with
  | nil => exact absurd rfl hne
  | cons d ds => rfl

/-! ## Numbers -/

/-- A text that does not go on with the number in front of it. -/
def EndsNumber (cs : List Char) : Prop :=
  ∀ c, cs.head? = some c → c.isDigit = false ∧ c ≠ '.' ∧ c ≠ 'e' ∧ c ≠ 'E'

theorem EndsNumber.noDigit {cs : List Char} (h : EndsNumber cs) : NoDigit cs :=
  fun c hc => (h c hc).1

@[simp]
theorem endsNumber_nil : EndsNumber [] := by
  simp [EndsNumber]

theorem endsNumber_cons {c : Char} {cs : List Char} :
    EndsNumber (c :: cs) ↔ c.isDigit = false ∧ c ≠ '.' ∧ c ≠ 'e' ∧ c ≠ 'E' := by
  simp [EndsNumber]

/-- A number behind its sign, and what follows. -/
def readUnsigned (negative : Bool) (cs : List Char) : Option (Numeral × List Char) := do
  let (ds, cs) ← readDigits cs
  if ds.head? = some '0' ∧ ds ≠ ['0'] then none
  else
    let (fraction, cs) ← readFraction cs
    let (exponent, cs) ← readExponent cs
    some ({ negative, whole := Decimal.ofDigits ds, fraction, exponent }, cs)

theorem readNumber_minus (cs : List Char) : readNumber ('-' :: cs) = readUnsigned true cs := rfl

theorem readNumber_eq_readUnsigned {cs : List Char} (h : cs.head? ≠ some '-') :
    readNumber cs = readUnsigned false cs := by
  cases cs with
  | nil => rfl
  | cons c cs =>
    have hc : c ≠ '-' := by simpa using h
    rw [readNumber, readUnsigned]
    exact fun rest heq => hc (List.cons.inj heq).1

end Json

namespace Numeral

/-- The text behind the digits of the integer part, up to the exponent. -/
def fractionChars (n : Numeral) : List Char := if n.fraction.isEmpty then [] else '.' :: n.fraction

/-- The text of the exponent. -/
def exponentChars (n : Numeral) : List Char :=
  match n.exponent with
  | none => []
  | some e => 'e' :: (if e < 0 then '-' else '+') :: Decimal.digits e.natAbs

theorem chars_eq (n : Numeral) : n.chars =
    (if n.negative then ['-'] else []) ++ Decimal.digits n.whole ++ n.fractionChars ++
      n.exponentChars := rfl

/-- A numeral with nothing but digits behind its point. -/
def Legible (n : Numeral) : Prop := ∀ c ∈ n.fraction, c.isDigit

end Numeral

namespace Json

variable {n : Numeral} {rest : List Char}

theorem readExponent_chars (hrest : EndsNumber rest) :
    readExponent (n.exponentChars ++ rest) = some (n.exponent, rest) := by
  have hdigits (k : Nat) : readDigits (Decimal.digits k ++ rest) = some (Decimal.digits k, rest) :=
    readDigits_append (Decimal.digits_ne_nil k) (fun _ => Decimal.isDigit_of_mem_digits)
      hrest.noDigit
  rw [Numeral.exponentChars]
  cases n.exponent with
  | none =>
    cases rest with
    | nil => rfl
    | cons c rest =>
      obtain ⟨-, -, he, hE⟩ := endsNumber_cons.mp hrest
      simp only [List.nil_append, readExponent]
      split
      case h_1 h => exact absurd (List.cons.inj h).1 he
      case h_2 h => exact absurd (List.cons.inj h).1 hE
      case h_3 => rfl
  | some e =>
    by_cases hsign : e < 0
    · have hvalue : -(Int.ofNat e.natAbs) = e := by
        rw [Int.ofNat_eq_natCast, Int.ofNat_natAbs_of_nonpos (Int.le_of_lt hsign), Int.neg_neg]
      simp only [readExponent, hsign, if_true, List.cons_append, hdigits, Option.map_some,
        Decimal.ofDigits_digits, hvalue]
    · have hvalue : Int.ofNat e.natAbs = e := Int.natAbs_of_nonneg (Int.not_lt.mp hsign)
      simp only [readExponent, hsign, if_false, List.cons_append, hdigits, Option.map_some,
        Decimal.ofDigits_digits, hvalue, Bool.false_eq_true]

/-- What stands behind the digits of the fraction starts with no digit and no point. -/
theorem exponentChars_append_head (hrest : EndsNumber rest) :
    ∀ c, (n.exponentChars ++ rest).head? = some c → c.isDigit = false ∧ c ≠ '.' := by
  rw [Numeral.exponentChars]
  cases n.exponent with
  | none => exact fun c hc => ⟨(hrest c hc).1, (hrest c hc).2.1⟩
  | some e => simp

theorem readFraction_chars (hn : n.Legible) (hrest : EndsNumber rest) :
    readFraction (n.fractionChars ++ (n.exponentChars ++ rest)) =
      some (n.fraction, n.exponentChars ++ rest) := by
  have htail := exponentChars_append_head (n := n) hrest
  rw [Numeral.fractionChars]
  rw [Numeral.Legible] at hn
  generalize n.exponentChars ++ rest = tail at htail ⊢
  generalize n.fraction = fraction at hn ⊢
  cases fraction with
  | nil =>
    cases tail with
    | nil => rfl
    | cons c tail =>
      simp only [List.isEmpty_nil, if_true, List.nil_append, readFraction]
      split
      case h_1 h => exact absurd (List.cons.inj h).1 (htail c rfl).2
      case h_2 => rfl
  | cons d ds => exact readDigits_append (by simp) hn fun c hc => (htail c hc).1

theorem readUnsigned_chars (hn : n.Legible) (hrest : EndsNumber rest) (negative : Bool) :
    readUnsigned negative
      (Decimal.digits n.whole ++ (n.fractionChars ++ (n.exponentChars ++ rest))) =
      some ({ n with negative }, rest) := by
  have hbehind : NoDigit (n.fractionChars ++ (n.exponentChars ++ rest)) := by
    rw [Numeral.fractionChars]
    cases n.fraction with
    | nil => exact fun c hc => (exponentChars_append_head hrest c hc).1
    | cons d ds => simp [NoDigit]
  have hwhole := readDigits_append (Decimal.digits_ne_nil n.whole)
    (fun _ => Decimal.isDigit_of_mem_digits) hbehind
  have hzero : ¬((Decimal.digits n.whole).head? = some '0' ∧ Decimal.digits n.whole ≠ ['0']) := by
    rintro ⟨hhead, hne⟩
    rw [Decimal.eq_zero_of_head?_digits hhead] at hne
    exact hne rfl
  simp [readUnsigned, hwhole, hzero, readFraction_chars hn hrest, readExponent_chars hrest]

/-- A number is read up to where it ends. -/
theorem readNumber_chars (hn : n.Legible) (hrest : EndsNumber rest) :
    readNumber (n.chars ++ rest) = some (n, rest) := by
  rw [Numeral.chars_eq]
  cases hsign : n.negative with
  | true =>
    simp only [if_true, List.append_assoc, List.cons_append, List.nil_append, readNumber_minus]
    rw [readUnsigned_chars hn hrest, ← hsign]
  | false =>
    obtain ⟨d, ds, hds, hd⟩ := Decimal.exists_digits_eq_cons n.whole
    have hhead : (Decimal.digits n.whole ++ (n.fractionChars ++ (n.exponentChars ++ rest))).head? ≠
        some '-' := by
      rw [hds]
      rintro h
      obtain rfl : d = '-' := by simpa using h
      exact absurd hd (by decide)
    simp only [Bool.false_eq_true, if_false, List.nil_append, List.append_assoc]
    rw [readNumber_eq_readUnsigned hhead, readUnsigned_chars hn hrest, ← hsign]

/-! ## Strings -/

theorem hexUnit?_hexDigit {n : Nat} (h : n < 0x20) :
    hexUnit? '0' '0' (hexDigit (n / 16)) (hexDigit (n % 16)) = some n := by
  have hexValue?_hexDigit : ∀ d < 16, hexValue? (hexDigit d) = some d := by decide
  have zero : hexValue? '0' = some 0 := rfl
  rw [hexUnit?, zero, hexValue?_hexDigit (n / 16) (by omega),
    hexValue?_hexDigit (n % 16) (by omega)]
  simp
  omega

/-- A literal that the reader takes up to the quote behind it. -/
def Literal (lit : List Char) : Prop :=
  ∀ rest, readString (lit ++ '"' :: rest) = some (lit, rest)

theorem readString_escapeChar (c : Char) (cs : List Char) :
    readString (escapeChar c ++ cs) =
      (readString cs).map fun (lit, rest) => (escapeChar c ++ lit, rest) := by
  unfold escapeChar
  -- Seven characters have an escape of their own, then come control characters and all others.
  iterate 7
    split
    next => simp [readString, simpleEscape?]
  split
  next control =>
    simp only [List.cons_append, List.nil_append]
    rw [readString, hexUnit?_hexDigit control]
  next _ backslash _ _ _ _ _ printable => simp [readString, backslash, printable]

/-- An escaped text is a literal. -/
theorem literal_escape (s : String) : Literal (escape s) := by
  intro rest
  rw [escape]
  induction s.toList with
  | nil => simp [readString]
  | cons c cs ih =>
    rw [List.flatMap_cons, List.append_assoc, readString_escapeChar, ih]
    rfl

theorem unescape?_escapeChar (c : Char) (cs : List Char) :
    unescape? (escapeChar c ++ cs) = (unescape? cs).map (c :: ·) := by
  unfold escapeChar
  iterate 7
    split
    next h => simp [unescape?, simpleEscape?, h]
  split
  next control =>
    simp only [List.cons_append, List.nil_append]
    rw [unescape?, hexUnit?_hexDigit control]
    simp [isHighSurrogate, isLowSurrogate, show ¬0xD800 ≤ c.toNat by omega,
      show ¬0xDC00 ≤ c.toNat by omega, Char.ofNat_toNat]
  next _ backslash _ _ _ _ _ _ => simp [unescape?, backslash]

/-- An escaped text stands for the text. -/
@[simp]
theorem unescape?_escape (s : String) : unescape? (escape s) = some s.toList := by
  rw [escape]
  induction s.toList with
  | nil => rfl
  | cons c cs ih =>
    rw [List.flatMap_cons, unescape?_escapeChar, ih]
    rfl

/-! ## Blanks -/

/-- A text of blanks. -/
def Blank (cs : List Char) : Prop := ∀ c ∈ cs, isBlank c

theorem blank_nil : Blank [] := by
  simp [Blank]

variable {gap close : List Char}

theorem Blank.skipBlanks_append (h : Blank gap) (cs : List Char) :
    skipBlanks (gap ++ cs) = skipBlanks cs :=
  List.dropWhile_append_of_pos h

theorem skipBlanks_cons {c : Char} (h : isBlank c = false) (cs : List Char) :
    skipBlanks (c :: cs) = c :: cs := by
  simp [skipBlanks, h]

@[simp]
theorem skipBlanks_skipBlanks (cs : List Char) : skipBlanks (skipBlanks cs) = skipBlanks cs :=
  List.dropWhile_idempotent isBlank cs

theorem endsNumber_of_blank {cs : List Char} (h : Blank gap) (hcs : EndsNumber cs) :
    EndsNumber (gap ++ cs) := by
  cases gap with
  | nil => exact hcs
  | cons c gap =>
    have hc : isBlank c := h c (by simp)
    simp only [isBlank, Bool.or_eq_true, decide_eq_true_eq] at hc
    rw [List.cons_append, endsNumber_cons]
    obtain ((rfl | rfl) | rfl) | rfl := hc <;> decide

section Calls

attribute [local simp] readValue readItems readMembers

theorem readValue_blank (h : Blank gap) (calls : Nat) (cs : List Char) :
    readValue calls (gap ++ cs) = readValue calls cs := by
  cases calls with
  | zero => simp
  | succ calls => rw [readValue, readValue, h.skipBlanks_append]

/-! ## Values -/

/-- A text that is read as a value wherever it stands, as long as nothing follows that would go on
with a number at its end. -/
def Spells (cs : List Char) (v : Json) : Prop :=
  ∀ calls rest, EndsNumber rest → 2 * cs.length ≤ calls →
    readValue calls (cs ++ rest) = some (v, rest)

/-- A text that is not empty is read with a call at least. -/
theorem spells_of_succ {cs : List Char} {v : Json} (hne : cs ≠ [])
    (h : ∀ calls rest, EndsNumber rest → 2 * cs.length ≤ calls + 1 →
      readValue (calls + 1) (cs ++ rest) = some (v, rest)) : Spells cs v := by
  intro calls rest hrest hcalls
  obtain _ | calls := calls
  · exact absurd (List.length_eq_zero_iff.mp (by omega)) hne
  · exact h calls rest hrest hcalls

/-- A text that is read as a member of an object. -/
def SpellsMember (cs : List Char) (m : List Char × Json) : Prop :=
  ∃ gap text, Blank gap ∧ Literal m.1 ∧ Spells text m.2 ∧ cs = quoted m.1 ++ ':' :: (gap ++ text)

theorem skipBlanks_append_cons (h : Blank gap) {c : Char} (hc : isBlank c = false)
    (rest : List Char) : skipBlanks (gap ++ c :: rest) = c :: rest := by
  rw [h.skipBlanks_append, skipBlanks_cons hc]

theorem readValue_skipBlanks (calls : Nat) (cs : List Char) :
    readValue calls (skipBlanks cs) = readValue calls cs := by
  cases calls with
  | zero => simp
  | succ calls => rw [readValue, readValue, skipBlanks_skipBlanks]

theorem readItems_skipBlanks (calls : Nat) (cs : List Char) :
    readItems calls (skipBlanks cs) = readItems calls cs := by
  cases calls with
  | zero => simp
  | succ calls => rw [readItems, readItems, readValue_skipBlanks]

theorem readMembers_skipBlanks (calls : Nat) (cs : List Char) :
    readMembers calls (skipBlanks cs) = readMembers calls cs := by
  cases calls with
  | zero => simp
  | succ calls => rw [readMembers, readMembers, skipBlanks_skipBlanks]

/-- No item starts with a closing bracket. -/
theorem readItems_bracket {calls : Nat} {cs rest : List Char} (h : skipBlanks cs = ']' :: rest) :
    readItems calls cs = none := by
  have hvalue (calls : Nat) : readValue calls cs = none := by
    cases calls with
    | zero => simp
    | succ calls => simp [h, readNumber, readDigits]
  cases calls with
  | zero => simp
  | succ calls => rw [readItems, hvalue]

/-- No member starts with a closing brace. -/
theorem readMembers_brace {calls : Nat} {cs rest : List Char}
    (h : skipBlanks cs = '\x7d' :: rest) : readMembers calls cs = none := by
  cases calls with
  | zero => simp
  | succ calls => simp [h]

end Calls

/-! ### One item and one member -/

section Steps

variable {part rest : List Char} {calls : Nat}

theorem readItems_last {item : Json} (h : Spells part item) (hgap : Blank gap)
    (hclose : Blank close) (hcalls : 2 * part.length ≤ calls) :
    readItems (calls + 1) (gap ++ (part ++ (close ++ ']' :: rest))) = some ([item], rest) := by
  have hends : EndsNumber (close ++ ']' :: rest) :=
    endsNumber_of_blank hclose (by simp [endsNumber_cons])
  rw [readItems, readValue_blank hgap, h calls _ hends hcalls]
  simp only [skipBlanks_append_cons hclose (c := ']') rfl]

theorem readItems_next {item : Json} (h : Spells part item) (hgap : Blank gap)
    (hcalls : 2 * part.length ≤ calls) {items : List Json} {more : List Char}
    (hmore : readItems calls more = some (items, rest)) :
    readItems (calls + 1) (gap ++ (part ++ ',' :: more)) = some (item :: items, rest) := by
  rw [readItems, readValue_blank hgap, h calls _ (by simp [endsNumber_cons]) hcalls]
  simp only [skipBlanks_cons (c := ',') rfl, hmore, Option.map_some]

theorem readMembers_last {m : List Char × Json} (h : SpellsMember part m) (hgap : Blank gap)
    (hclose : Blank close) (hcalls : 2 * part.length ≤ calls) :
    readMembers (calls + 1) (gap ++ (part ++ (close ++ '\x7d' :: rest))) = some ([m], rest) := by
  obtain ⟨colonGap, text, hcolon, hname, hvalue, rfl⟩ := h
  have hends : EndsNumber (close ++ '\x7d' :: rest) :=
    endsNumber_of_blank hclose (by simp [endsNumber_cons])
  have htext : 2 * text.length ≤ calls := by simp [quoted] at hcalls; omega
  simp only [quoted, List.cons_append, List.append_assoc, List.nil_append]
  rw [readMembers, skipBlanks_append_cons hgap rfl]
  simp only [hname _, skipBlanks_cons (c := ':') rfl, readValue_blank hcolon,
    hvalue calls _ hends htext, skipBlanks_append_cons hclose (c := '\x7d') rfl]

theorem readMembers_next {m : List Char × Json} (h : SpellsMember part m) (hgap : Blank gap)
    (hcalls : 2 * part.length ≤ calls) {members : List (List Char × Json)} {more : List Char}
    (hmore : readMembers calls more = some (members, rest)) :
    readMembers (calls + 1) (gap ++ (part ++ ',' :: more)) = some (m :: members, rest) := by
  obtain ⟨colonGap, text, hcolon, hname, hvalue, rfl⟩ := h
  have hends : EndsNumber (',' :: more) := by simp [endsNumber_cons]
  have htext : 2 * text.length ≤ calls := by simp [quoted] at hcalls; omega
  simp only [quoted, List.cons_append, List.append_assoc, List.nil_append]
  rw [readMembers, skipBlanks_append_cons hgap rfl]
  simp only [hname _, skipBlanks_cons (c := ':') rfl, readValue_blank hcolon,
    hvalue calls _ hends htext, skipBlanks_cons (c := ',') rfl, hmore, Option.map_some]

end Steps

/-! ### Lists and objects -/

variable {parts : List (List Char)}

theorem separated_cons_cons (sep part next : List Char) (parts : List (List Char)) :
    separated sep (part :: next :: parts) = part ++ (sep ++ separated sep (next :: parts)) := by
  simp [separated]

/-- Items that are spelled are read up to the closing bracket. -/
theorem readItems_spells {items : List Json} (h : List.Forall₂ Spells parts items)
    (hne : items ≠ []) (hgap : Blank gap) (hclose : Blank close) (calls : Nat) (rest : List Char)
    (hcalls : 2 * ((separated (',' :: gap) parts).length + 1) ≤ calls) :
    readItems calls (gap ++ separated (',' :: gap) parts ++ close ++ ']' :: rest) =
      some (items, rest) := by
  induction h generalizing calls with
  | nil => exact absurd rfl hne
  | cons hpart hparts ih =>
    obtain _ | calls := calls
    · omega
    cases hparts with
    | nil =>
      simp only [separated, List.append_assoc] at hcalls ⊢
      exact readItems_last hpart hgap hclose (by omega)
    | cons hnext hparts =>
      rw [separated_cons_cons] at hcalls ⊢
      simp only [List.length_append, List.length_cons] at hcalls
      have hmore := ih (by simp) calls (by omega)
      simp only [List.append_assoc, List.cons_append] at hmore ⊢
      exact readItems_next hpart hgap (by omega) hmore

/-- Members that are spelled are read up to the closing brace. -/
theorem readMembers_spells {members : List (List Char × Json)}
    (h : List.Forall₂ SpellsMember parts members) (hne : members ≠ []) (hgap : Blank gap)
    (hclose : Blank close) (calls : Nat) (rest : List Char)
    (hcalls : 2 * ((separated (',' :: gap) parts).length + 1) ≤ calls) :
    readMembers calls (gap ++ separated (',' :: gap) parts ++ close ++ '\x7d' :: rest) =
      some (members, rest) := by
  induction h generalizing calls with
  | nil => exact absurd rfl hne
  | cons hpart hparts ih =>
    obtain _ | calls := calls
    · omega
    cases hparts with
    | nil =>
      simp only [separated, List.append_assoc] at hcalls ⊢
      exact readMembers_last hpart hgap hclose (by omega)
    | cons hnext hparts =>
      rw [separated_cons_cons] at hcalls ⊢
      simp only [List.length_append, List.length_cons] at hcalls
      have hmore := ih (by simp) calls (by omega)
      simp only [List.append_assoc, List.cons_append] at hmore ⊢
      exact readMembers_next hpart hgap (by omega) hmore

/-- Brackets around items that are spelled spell the list of the items. -/
theorem Spells.array {items : List Json} (h : List.Forall₂ Spells parts items)
    (hne : items ≠ []) (hgap : Blank gap) (hclose : Blank close) :
    Spells ('[' :: (gap ++ separated (',' :: gap) parts ++ close ++ [']'])) (.array items) := by
  refine spells_of_succ (by simp) fun calls rest _ hcalls => ?_
  have hitems := readItems_spells h hne hgap hclose calls rest (by simp at hcalls; omega)
  -- Items are read, so the list is not closed at once.
  have hopen : ∀ r, skipBlanks (gap ++ separated (',' :: gap) parts ++ close ++ ']' :: rest) ≠
      ']' :: r := by
    intro r hr
    rw [readItems_bracket hr] at hitems
    exact nomatch hitems
  rw [← readItems_skipBlanks] at hitems
  simp only [List.append_assoc, List.cons_append, List.nil_append] at hitems hopen ⊢
  rw [readValue, skipBlanks_cons rfl]
  split
  case h_1 h => simp at h
  case h_2 inside h =>
    obtain rfl := (List.cons.inj h).2
    split
    case h_1 r hr => exact absurd hr (hopen r)
    case h_2 => rw [hitems, Option.map_some]
  all_goals simp_all

/-- Braces around members that are spelled spell the object of the members. -/
theorem Spells.object {members : List (List Char × Json)}
    (h : List.Forall₂ SpellsMember parts members) (hne : members ≠ []) (hgap : Blank gap)
    (hclose : Blank close) :
    Spells ('\x7b' :: (gap ++ separated (',' :: gap) parts ++ close ++ ['\x7d']))
      (.object members) := by
  refine spells_of_succ (by simp) fun calls rest _ hcalls => ?_
  have hmembers := readMembers_spells h hne hgap hclose calls rest (by simp at hcalls; omega)
  -- Members are read, so the object is not closed at once.
  have hopen : ∀ r, skipBlanks (gap ++ separated (',' :: gap) parts ++ close ++ '\x7d' :: rest) ≠
      '\x7d' :: r := by
    intro r hr
    rw [readMembers_brace hr] at hmembers
    exact nomatch hmembers
  rw [← readMembers_skipBlanks] at hmembers
  simp only [List.append_assoc, List.cons_append, List.nil_append] at hmembers hopen ⊢
  rw [readValue, skipBlanks_cons rfl]
  split
  case h_1 inside h =>
    obtain rfl := (List.cons.inj h).2
    split
    case h_1 r hr => exact absurd hr (hopen r)
    case h_2 => rw [hmembers, Option.map_some]
  all_goals simp_all

theorem spells_emptyArray : Spells ['[', ']'] (.array []) := by
  refine spells_of_succ (by simp) fun calls rest _ _ => ?_
  simp [readValue, skipBlanks, isBlank]

theorem spells_emptyObject : Spells ['\x7b', '\x7d'] (.object []) := by
  refine spells_of_succ (by simp) fun calls rest _ _ => ?_
  simp [readValue, skipBlanks, isBlank]

theorem spells_quoted {lit : List Char} (h : Literal lit) : Spells (quoted lit) (.string lit) := by
  refine spells_of_succ (by simp [quoted]) fun calls rest _ _ => ?_
  simp [readValue, quoted, skipBlanks_cons (c := '"') rfl, h rest]

theorem spells_null : Spells ['n', 'u', 'l', 'l'] .null := by
  refine spells_of_succ (by simp) fun calls rest _ _ => ?_
  simp [readValue, skipBlanks, isBlank]

theorem spells_true : Spells ['t', 'r', 'u', 'e'] (.bool true) := by
  refine spells_of_succ (by simp) fun calls rest _ _ => ?_
  simp [readValue, skipBlanks, isBlank]

theorem spells_false : Spells ['f', 'a', 'l', 's', 'e'] (.bool false) := by
  refine spells_of_succ (by simp) fun calls rest _ _ => ?_
  simp [readValue, skipBlanks, isBlank]

/-- A number starts with its sign or with a digit, which no other value does. -/
theorem spells_number (hn : n.Legible) : Spells n.chars (.number n) := by
  obtain ⟨c, cs, hchars, hc⟩ : ∃ c cs, n.chars = c :: cs ∧ (c = '-' ∨ c.isDigit) := by
    obtain ⟨d, ds, hds, hd⟩ := Decimal.exists_digits_eq_cons n.whole
    rw [Numeral.chars_eq, hds]
    cases n.negative with
    | true => exact ⟨'-', _, rfl, .inl rfl⟩
    | false => exact ⟨d, _, rfl, .inr hd⟩
  refine spells_of_succ (by simp [hchars]) fun calls rest hrest _ => ?_
  have hblank : isBlank c = false := by
    rw [Bool.eq_false_iff]
    intro h
    simp only [isBlank, Bool.or_eq_true, decide_eq_true_eq] at h
    obtain ((rfl | rfl) | rfl) | rfl := h <;> exact absurd hc (by decide)
  have hnumber := readNumber_chars hn hrest
  rw [hchars, List.cons_append] at hnumber ⊢
  rw [readValue, skipBlanks_cons hblank]
  split
  case h_7 => rw [hnumber, Option.map_some]
  all_goals
    rename_i h
    obtain ⟨rfl, -⟩ := List.cons.inj h
    exact absurd hc (by decide)

/-! ## Both layouts -/

/-- A value that is written so that it can be read. -/
inductive Legible : Json → Prop
  | null : Legible .null
  | bool (b : Bool) : Legible (.bool b)
  | number {n : Numeral} (h : n.Legible) : Legible (.number n)
  | string {lit : List Char} (h : Literal lit) : Legible (.string lit)
  | array {items : List Json} (h : ∀ item ∈ items, Legible item) : Legible (.array items)
  | object {members : List (List Char × Json)} (hnames : ∀ m ∈ members, Literal m.1)
    (hvalues : ∀ m ∈ members, Legible m.2) : Legible (.object members)

theorem prettyItems_eq_map (depth : Nat) (items : List Json) :
    prettyItems depth items = items.map (prettyChars depth) := by
  induction items with
  | nil => rfl
  | cons item items ih => rw [prettyItems, ih, List.map_cons]

theorem prettyMembers_eq_map (depth : Nat) (members : List (List Char × Json)) :
    prettyMembers depth members =
      members.map fun m => quoted m.1 ++ ':' :: ' ' :: prettyChars depth m.2 := by
  induction members with
  | nil => rfl
  | cons m members ih => rw [prettyMembers, ih, List.map_cons]

theorem compactItems_eq_map (items : List Json) : compactItems items = items.map compactChars := by
  induction items with
  | nil => rfl
  | cons item items ih => rw [compactItems, ih, List.map_cons]

theorem compactMembers_eq_map (members : List (List Char × Json)) :
    compactMembers members = members.map fun m => quoted m.1 ++ ':' :: compactChars m.2 := by
  induction members with
  | nil => rfl
  | cons m members ih => rw [compactMembers, ih, List.map_cons]

theorem blank_newLine (depth : Nat) : Blank (newLine depth) := by
  simp [Blank, newLine, isBlank]

theorem Spells.array_block {items : List Json} (h : List.Forall₂ Spells parts items) (depth : Nat) :
    Spells (block '[' ']' depth parts) (.array items) := by
  cases h with
  | nil => exact spells_emptyArray
  | cons hitem hitems =>
    exact .array (.cons hitem hitems) (by simp) (blank_newLine _) (blank_newLine _)

theorem Spells.object_block {members : List (List Char × Json)}
    (h : List.Forall₂ SpellsMember parts members) (depth : Nat) :
    Spells (block '\x7b' '\x7d' depth parts) (.object members) := by
  cases h with
  | nil => exact spells_emptyObject
  | cons hmember hmembers =>
    exact .object (.cons hmember hmembers) (by simp) (blank_newLine _) (blank_newLine _)

/-- The pretty text of a legible value spells it. -/
theorem Legible.spells_pretty {v : Json} (h : Legible v) :
    ∀ depth, Spells (prettyChars depth v) v := by
  induction h with
  | null => exact fun _ => spells_null
  | bool b =>
    cases b with
    | true => exact fun _ => spells_true
    | false => exact fun _ => spells_false
  | number h => exact fun _ => spells_number h
  | string h => exact fun _ => spells_quoted h
  | array _ ih =>
    intro depth
    rw [prettyChars, prettyItems_eq_map]
    refine .array_block (List.forall₂_map_left_iff.mpr (List.forall₂_same.mpr ?_)) depth
    exact fun item hitem => ih item hitem (depth + 1)
  | object hnames _ ih =>
    intro depth
    rw [prettyChars, prettyMembers_eq_map]
    refine .object_block (List.forall₂_map_left_iff.mpr (List.forall₂_same.mpr ?_)) depth
    exact fun m hm => ⟨[' '], _, by simp [Blank, isBlank], hnames m hm, ih m hm (depth + 1), rfl⟩

/-- The compact text of a legible value spells it. -/
theorem Legible.spells_compact {v : Json} (h : Legible v) : Spells v.compactChars v := by
  induction h with
  | null => exact spells_null
  | bool b =>
    cases b with
    | true => exact spells_true
    | false => exact spells_false
  | number h => exact spells_number h
  | string h => exact spells_quoted h
  | @array items _ ih =>
    rw [compactChars, compactItems_eq_map]
    obtain rfl | hne := eq_or_ne items []
    · exact spells_emptyArray
    have hitems := List.forall₂_map_left_iff.mpr (List.forall₂_same.mpr ih)
    simpa using Spells.array hitems hne blank_nil blank_nil
  | @object members hnames _ ih =>
    rw [compactChars, compactMembers_eq_map]
    obtain rfl | hne := eq_or_ne members []
    · exact spells_emptyObject
    have hmember : ∀ m ∈ members, SpellsMember (quoted m.1 ++ ':' :: compactChars m.2) m :=
      fun m hm => ⟨[], _, blank_nil, hnames m hm, ih m hm, rfl⟩
    have hmembers := List.forall₂_map_left_iff.mpr (List.forall₂_same.mpr hmember)
    simpa using Spells.object hmembers hne blank_nil blank_nil

theorem Spells.parseChars? {cs : List Char} {v : Json} (h : Spells cs v) :
    parseChars? cs = some v := by
  have := h (2 * cs.length + 2) [] endsNumber_nil (by omega)
  rw [List.append_nil] at this
  simp [Json.parseChars?, this, skipBlanks]

/-! ## Values that are written -/

theorem legible_ofString (s : String) : Legible (ofString s) :=
  .string (literal_escape s)

theorem legible_ofNat (k : Nat) : Legible (ofNat k) :=
  .number (by simp [Numeral.Legible])

theorem legible_ofList {α : Type} {f : α → Json} (h : ∀ a, Legible (f a)) (l : List α) :
    Legible (ofList f l) := by
  refine .array fun item hitem => ?_
  obtain ⟨a, -, rfl⟩ := List.mem_map.mp hitem
  exact h a

theorem legible_record {members : List (String × Json)} (h : ∀ m ∈ members, Legible m.2) :
    Legible (record members) := by
  refine .object (fun m hm => ?_) (fun m hm => ?_) <;>
    obtain ⟨⟨name, value⟩, hmember, rfl⟩ := List.mem_map.mp hm
  · exact literal_escape name
  · exact h _ hmember

/-! ## Texts -/

/-- The pretty text of a legible value is read as the value. -/
theorem Legible.parse?_pretty {v : Json} (h : Legible v) : parse? v.pretty = some v := by
  rw [parse?, pretty, String.toList_ofList, (h.spells_pretty 0).parseChars?]

/-- The compact text of a legible value is read as the value. -/
theorem Legible.parse?_compact {v : Json} (h : Legible v) : parse? v.compact = some v := by
  rw [parse?, compact, String.toList_ofList, h.spells_compact.parseChars?]

end Json

end LayerNet
