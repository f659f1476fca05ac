import LayerNet.Text
import Mathlib.Data.List.Forall2
import Mathlib.Data.List.Infix
import Mathlib.Data.List.TakeWhile

/-!
# Words in texts

What the functions on texts do, said without them:

* `cut_eq` — a text is cut at each separator;
* `trim_eq_empty_iff` — trimming leaves nothing of a text exactly if all its characters are blank;
* `mentions_trim` — a word of letters is in a text exactly if it is in the trimmed text;
* `mentions_iff` — a word without `k` that does not end in `i` is mentioned in a text exactly if the
  lower-case form of the text contains it.

The last one is about the case mapping of Unicode, of which `Lowers` keeps what matters to words of
ASCII letters: which characters have ASCII characters in their lower-case forms.
-/

namespace LayerNet.Text

variable {word before after l s form : List Char} {c sep : Char} {part text low : String}
  {forms : List (List Char)}

/-! ## Pieces -/

theorem cutChars_eq (sep : Char) (l : List Char) : cutChars sep l = l.splitOn sep := by
  induction l with
  | nil => rfl
  | cons c l ih =>
    rw [cutChars, List.splitOn_cons_eq_if_modifyHead, ih]
    by_cases h : c = sep
    · simp [h]
    · simp only [h, if_false, beq_iff_eq]
      cases hpieces : l.splitOn sep with
      | nil => exact absurd hpieces (List.splitOn_ne_nil sep l)
      | cons piece pieces => rfl

theorem cut_eq (sep : Char) (text : String) :
    cut sep text = (text.toList.splitOn sep).map String.ofList := by
  rw [cut, cutChars_eq]

/-! ## Occurrences -/

theorem occursIn_iff : occursIn word l = true ↔ word <:+: l := by
  induction l with
  | nil => simp [occursIn]
  | cons c l ih =>
    rw [occursIn, Bool.or_eq_true, List.isPrefixOf_iff_prefix, ih, List.infix_cons_iff]

/-- A word does not begin at a character that is none of its own. -/
theorem not_isPrefix_cons (hne : word ≠ []) (hc : c ∉ word) : ¬word <+: c :: l := by
  cases word with
  | nil => exact absurd rfl hne
  | cons x word =>
    rw [List.cons_prefix_cons]
    rintro ⟨rfl, -⟩
    exact hc List.mem_cons_self

theorem infix_append_iff_right (hne : word ≠ []) (h : ∀ c ∈ before, c ∉ word) :
    word <:+: before ++ l ↔ word <:+: l := by
  induction before with
  | nil => rfl
  | cons c before ih =>
    rw [List.forall_mem_cons] at h
    rw [List.cons_append, List.infix_cons_iff, or_iff_right (not_isPrefix_cons hne h.1), ih h.2]

theorem infix_append_iff_left (hne : word ≠ []) (h : ∀ c ∈ after, c ∉ word) :
    word <:+: l ++ after ↔ word <:+: l := by
  rw [← List.reverse_infix, List.reverse_append, infix_append_iff_right (by simpa using hne)
    (by simpa using h), List.reverse_infix]

/-! ## Lower case -/

/-- The forms that a character may have in lower case.  The capitals A to Z become small letters,
and no other ASCII character changes; outside of ASCII, the Kelvin sign becomes a `k`, the dotted
capital I becomes an `i` with a combining dot behind it, and no other form has an ASCII character in
it. -/
inductive Lowers : Char → List Char → Prop
  | ascii {c : Char} (hc : c.toNat < 128) : Lowers c [c.toLower]
  | kelvin : Lowers '\u212A' ['k']
  | dotted : Lowers '\u0130' ['i', '\u0307']
  | other {c : Char} {form : List Char} (hc : 128 ≤ c.toNat) (hne : form ≠ [])
      (hform : ∀ x ∈ form, 128 ≤ x.toNat) : Lowers c form

/-- `low` is the text in lower case, character by character. -/
def LowercaseOf (text low : String) : Prop :=
  ∃ forms, List.Forall₂ Lowers text.toList forms ∧ low.toList = forms.flatten

/-- The lower-case form of a character where Unicode has ASCII characters in it, and elsewhere the
character itself. -/
def lowerChar (c : Char) : List Char :=
  if c.toNat < 128 then [c.toLower]
  else if c = '\u212A' then ['k']
  else if c = '\u0130' then ['i', '\u0307']
  else [c]

/-- A text in lower case, as far as ASCII characters are concerned. -/
def lower (text : String) : String := String.ofList (text.toList.flatMap lowerChar)

theorem lowers_lowerChar (c : Char) : Lowers c (lowerChar c) := by
  rw [lowerChar]
  split_ifs with hascii hkelvin hdotted
  · exact .ascii hascii
  · exact hkelvin ▸ .kelvin
  · exact hdotted ▸ .dotted
  · exact .other (Nat.not_lt.1 hascii) (List.cons_ne_nil _ _) (by simpa using hascii)

theorem lowercaseOf_lower (text : String) : LowercaseOf text (lower text) :=
  ⟨text.toList.map lowerChar, List.forall₂_map_right_iff.2 (List.forall₂_same.2 fun c _ =>
    lowers_lowerChar c), by rw [lower, String.toList_ofList, List.flatMap_def]⟩

/-- Words of small letters, without `k` and not ending in `i`. -/
structure Plain (word : List Char) : Prop where
  letter : ∀ c ∈ word, 97 ≤ c.toNat ∧ c.toNat ≤ 122
  no_k : 'k' ∉ word
  last : word.getLast? ≠ some 'i'

instance (word : List Char) : Decidable (Plain word) :=
  decidable_of_iff ((word.all fun c => 97 ≤ c.toNat && c.toNat ≤ 122) = true ∧ 'k' ∉ word ∧
      word.getLast? ≠ some 'i')
    ⟨fun ⟨hletter, hk, hlast⟩ => ⟨by simpa using hletter, hk, hlast⟩,
      fun ⟨hletter, hk, hlast⟩ => ⟨by simpa using hletter, hk, hlast⟩⟩

theorem Plain.tail (hw : Plain (c :: word)) : Plain word where
  letter x hx := hw.letter x (List.mem_cons_of_mem _ hx)
  no_k hk := hw.no_k (List.mem_cons_of_mem _ hk)
  last h := by
    cases word with
    | nil => exact absurd h (by simp)
    | cons x word => exact hw.last (by simpa using h)

theorem Plain.not_mem (hw : Plain word) (hc : 128 ≤ c.toNat) : c ∉ word := fun hm => by
  have := hw.letter c hm
  omega

theorem toLower_eq_self (hc : c.toNat < 65 ∨ 90 < c.toNat) : c.toLower = c := by
  refine dif_neg ?_
  rintro ⟨hA, hZ⟩
  have hA : 65 ≤ c.toNat := hA
  have hZ : c.toNat ≤ 90 := hZ
  omega

/-- The lower-case form of a character outside of ASCII is not a part of a word. -/
theorem Plain.skips (hw : Plain word) (hne : word ≠ []) (hc : 128 ≤ c.toNat) (h : Lowers c form)
    (l : List Char) : ¬word <+: form ++ l ∧ (word <:+: form ++ l ↔ word <:+: l) := by
  have hforeign : ∀ {form : List Char}, form ≠ [] → (∀ x ∈ form, x ∉ word) →
      ¬word <+: form ++ l ∧ (word <:+: form ++ l ↔ word <:+: l) := by
    intro form hform hnot
    refine ⟨?_, infix_append_iff_right hne hnot⟩
    obtain ⟨x, rest, rfl⟩ := List.exists_cons_of_ne_nil hform
    exact not_isPrefix_cons hne (hnot x List.mem_cons_self)
  cases h with
  | ascii hascii => omega
  | kelvin => exact hforeign (List.cons_ne_nil _ _) (by simpa using hw.no_k)
  | other _ hform hother => exact hforeign hform fun x hx => hw.not_mem (hother x hx)
  | dotted =>
    -- a word that begins with this `i` would have to end there
    have hdot : '\u0307' ∉ word := hw.not_mem (by decide)
    have hbegins : ¬word <+: 'i' :: '\u0307' :: l := by
      obtain ⟨x, rest, rfl⟩ := List.exists_cons_of_ne_nil hne
      rw [List.cons_prefix_cons]
      rintro ⟨rfl, hrest⟩
      cases rest with
      | nil => exact hw.last rfl
      | cons y rest =>
        exact not_isPrefix_cons (List.cons_ne_nil _ _) (fun hm => hdot (List.mem_cons_of_mem _ hm))
          hrest
    refine ⟨hbegins, ?_⟩
    rw [List.cons_append, List.infix_cons_iff, List.cons_append, List.nil_append,
      or_iff_right hbegins, List.infix_cons_iff, or_iff_right (not_isPrefix_cons hne hdot)]

theorem Plain.skips_toLower (hw : Plain word) (hne : word ≠ []) (hc : 128 ≤ c.toNat)
    (l : List Char) : ¬word <+: c.toLower :: l ∧ (word <:+: c.toLower :: l ↔ word <:+: l) := by
  have hself : Lowers c [c.toLower] := by
    rw [toLower_eq_self (by omega)]
    exact .other hc (List.cons_ne_nil _ _) (by simpa using hc)
  exact hw.skips hne hc hself l

theorem Lowers.eq_of_ascii (h : Lowers c form) (hc : c.toNat < 128) : form = [c.toLower] := by
  cases h with
  | ascii => rfl
  | kelvin => exact absurd hc (by decide)
  | dotted => exact absurd hc (by decide)
  | other hother => omega

/-- A word begins at the same characters whether a text is in lower case or has small letters in
place of its capitals. -/
theorem Plain.prefix_iff (hw : Plain word) (h : List.Forall₂ Lowers s forms) :
    word <+: forms.flatten ↔ word <+: s.map Char.toLower := by
  induction h generalizing word with
  | nil => rfl
  | @cons c form s forms hc _ ih =>
    cases word with
    | nil => simp
    | cons x word =>
      rw [List.flatten_cons, List.map_cons]
      by_cases hascii : c.toNat < 128
      · rw [hc.eq_of_ascii hascii, List.singleton_append, List.cons_prefix_cons,
          List.cons_prefix_cons, ih hw.tail]
      · have hne := List.cons_ne_nil x word
        have hc' := Nat.not_lt.1 hascii
        exact iff_of_false (hw.skips hne hc' hc _).1 (hw.skips_toLower hne hc' _).1

theorem Plain.infix_iff (hw : Plain word) (hne : word ≠ []) (h : List.Forall₂ Lowers s forms) :
    word <:+: forms.flatten ↔ word <:+: s.map Char.toLower := by
  induction h with
  | nil => rfl
  | @cons c form s forms hc hrest ih =>
    by_cases hascii : c.toNat < 128
    · have hbegins := hw.prefix_iff (.cons hc hrest)
      rw [List.flatten_cons, List.map_cons, hc.eq_of_ascii hascii, List.singleton_append]
        at hbegins ⊢
      rw [List.infix_cons_iff, List.infix_cons_iff, hbegins, ih]
    · have hc' := Nat.not_lt.1 hascii
      rw [List.flatten_cons, List.map_cons, (hw.skips hne hc' hc _).2,
        (hw.skips_toLower hne hc' _).2, ih]

theorem mentions_iff (hw : Plain part.toList) (hne : part.toList ≠ []) (h : LowercaseOf text low) :
    mentions part text = true ↔ part.toList <:+: low.toList := by
  obtain ⟨forms, hforms, hlow⟩ := h
  rw [mentions, occursIn_iff, hlow, hw.infix_iff hne hforms]

/-! ## Trimming -/

/-- Trimming takes blanks away at both ends. -/
theorem exists_blanks (l : List Char) : ∃ before after, (∀ c ∈ before, isBlank c = true) ∧
    (∀ c ∈ after, isBlank c = true) ∧ l = before ++ (trimChars l ++ after) := by
  refine ⟨l.takeWhile isBlank, ((l.dropWhile isBlank).reverse.takeWhile isBlank).reverse,
    fun c hc => List.mem_takeWhile_imp hc,
    fun c hc => List.mem_takeWhile_imp (List.mem_reverse.1 hc), ?_⟩
  rw [trimChars, ← List.reverse_append, List.takeWhile_append_dropWhile, List.reverse_reverse,
    List.takeWhile_append_dropWhile]

theorem trim_eq_empty_iff : trim text = "" ↔ ∀ c ∈ text.toList, isBlank c = true := by
  rw [trim, ← String.toList_inj, String.toList_ofList, trimChars, String.toList_empty,
    List.reverse_eq_nil_iff, List.dropWhile_eq_nil_iff]
  simp only [List.mem_reverse]
  constructor
  · intro hall
    have hdrop : text.toList.dropWhile isBlank = [] := by
      by_contra hne
      have hhead := List.head_dropWhile_not isBlank hne
      exact Bool.false_ne_true (hhead.symm.trans (hall _ (List.head_mem hne)))
    exact List.dropWhile_eq_nil_iff.1 hdrop
  · exact fun hall c hc => hall c ((List.dropWhile_sublist _).mem hc)

theorem toLower_of_isBlank (hc : isBlank c = true) : c.toLower = c := by
  refine toLower_eq_self ?_
  simp only [isBlank, Bool.or_eq_true, Bool.and_eq_true, decide_eq_true_eq, beq_iff_eq] at hc
  omega

theorem Plain.not_mem_of_isBlank (hw : Plain word) (hc : isBlank c = true) : c ∉ word := by
  intro hm
  have hletter := hw.letter c hm
  simp only [isBlank, Bool.or_eq_true, Bool.and_eq_true, decide_eq_true_eq, beq_iff_eq] at hc
  omega

/-- Blanks are no part of a word. -/
theorem mentions_trim (hw : Plain part.toList) (hne : part.toList ≠ []) (text : String) :
    mentions part (trim text) = mentions part text := by
  have hblank : ∀ blanks : List Char, (∀ c ∈ blanks, isBlank c = true) →
      ∀ c ∈ blanks.map Char.toLower, c ∉ part.toList := by
    intro blanks hblanks c hc
    obtain ⟨b, hb, rfl⟩ := List.mem_map.1 hc
    rw [toLower_of_isBlank (hblanks b hb)]
    exact hw.not_mem_of_isBlank (hblanks b hb)
  obtain ⟨before, after, hbefore, hafter, htext⟩ := exists_blanks text.toList
  rw [Bool.eq_iff_iff, mentions, mentions, occursIn_iff, occursIn_iff, trim, String.toList_ofList,
    htext, List.map_append, List.map_append, infix_append_iff_right hne (hblank before hbefore),
    infix_append_iff_left hne (hblank after hafter), ← htext]

end LayerNet.Text
