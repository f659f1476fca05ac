import LayerNet.Json.Single
import LayerNet.Proofs.Legible
import Mathlib.Data.Rat.Cast.Order
import Mathlib.Algebra.Order.Field.Power
import Mathlib.Tactic.Ring
import Mathlib.Tactic.Positivity
import Mathlib.Tactic.GCongr

/-!
# Finite numbers are written as numerals that can be read

A numeral is refused if one of the steps in which it is read leaves the range of 64 bits.  That
happens to numerals like 1e400, but never to one that was written: a number of 32 bits is below
10³⁹, and its numeral is not much above.

* What is rounded to a format has a significand of the format and an exponent that follows from the
  lengths of numerator and denominator (`BinaryFormat.round_eq_some_or_none`).
* A numeral whose integer part and exponent are moderate is read (`Numeral.single?_isSome`).
* The shortest digits of a finite number are moderate (`Single.shortest_bound`), and so is its
  numeral (`Single.exists_numeral?`).

The bounds are crude: all of them are far from the range of 64 bits.
-/

namespace LayerNet

/-! ## Lengths of decimals -/

namespace Decimal

theorem length_digits_le {n k : Nat} (hk : 0 < k) (h : n < 10 ^ k) : (digits n).length ≤ k :=
  (Nat.length_toDigits_le_iff (by decide) hk).mpr h

theorem lt_of_length_digits_le {n k : Nat} (hk : 0 < k) (h : (digits n).length ≤ k) : n < 10 ^ k :=
  (Nat.length_toDigits_le_iff (by decide) hk).mp h

theorem length_digits_pos (n : Nat) : 0 < (digits n).length :=
  Nat.length_toDigits_pos

theorem length_digits_mono {m n : Nat} (h : m ≤ n) : (digits m).length ≤ (digits n).length :=
  length_digits_le (length_digits_pos n)
    (h.trans_lt (lt_of_length_digits_le (length_digits_pos n) le_rfl))

theorem ofDigits_lt {ds : List Char} (h : ∀ c ∈ ds, c.isDigit) : ofDigits ds < 10 ^ ds.length := by
  induction ds using List.reverseRecOn with
  | nil => simp [ofDigits]
  | append_singleton ds d ih =>
    have hd : digitValue d < 10 := by
      have := h d (by simp)
      simp only [Char.isDigit, Bool.and_eq_true, decide_eq_true_eq] at this
      have h9 : d.val.toNat ≤ 57 := this.2
      have : d.toNat - '0'.toNat < 10 := by
        show d.val.toNat - 48 < 10
        omega
      exact this
    have := ih fun c hc => h c (by simp [hc])
    have hfold : ofDigits (ds ++ [d]) = 10 * ofDigits ds + digitValue d := by
      simp [ofDigits, List.foldl_append]
    rw [hfold, List.length_append, List.length_singleton, pow_succ]
    omega

theorem length_digits_ofDigits_le {ds : List Char} (hne : ds ≠ []) (h : ∀ c ∈ ds, c.isDigit) :
    (digits (ofDigits ds)).length ≤ ds.length :=
  length_digits_le (List.length_pos_iff.mpr hne) (ofDigits_lt h)

theorem extend_lt {bound n : Nat} (hn : n < bound) (ds : List Char) :
    (extend bound n ds).1 < bound := by
  induction ds generalizing n with
  | nil => exact hn
  | cons d ds ih =>
    rw [extend]
    split
    case isTrue h => exact ih h
    case isFalse => exact hn

theorem dropZeros_le (fuel n : Nat) : (dropZeros fuel n).1 ≤ n ∧ (dropZeros fuel n).2 ≤ fuel := by
  induction fuel generalizing n with
  | zero => simp [dropZeros]
  | succ fuel ih =>
    rw [dropZeros]
    split
    case isTrue =>
      have := ih (n / 10)
      exact ⟨this.1.trans (Nat.div_le_self n 10), Nat.succ_le_succ this.2⟩
    case isFalse => simp

end Decimal

/-! ## Rounding -/

namespace BinaryFormat

theorem roundQuotient_le (tie : Tie) (num den : Nat) :
    roundQuotient tie num den ≤ num / den + 1 := by
  unfold roundQuotient
  grind

/-- Comparing a quotient with a power of two, without fractions. -/
theorem scaled_lt_iff (num den : Nat) (q : Int) :
    num * 2 ^ (-q).toNat < den * 2 ^ q.toNat ↔ (num : ℚ) < den * 2 ^ q := by
  obtain ⟨k, rfl | rfl⟩ := q.eq_nat_or_neg
  · simp only [Int.toNat_neg_natCast, pow_zero, mul_one, Int.toNat_natCast, zpow_natCast]
    exact_mod_cast Iff.rfl
  · have : (0 : ℚ) < 2 ^ k := by positivity
    simp only [neg_neg, Int.toNat_neg_natCast, pow_zero, mul_one, Int.toNat_natCast, zpow_neg,
      zpow_natCast, ← div_eq_mul_inv, lt_div_iff₀ this]
    exact_mod_cast Iff.rfl

theorem floorLog2_le (num den : Nat) : floorLog2 num den ≤ num.log2 - den.log2 := by
  simp only [floorLog2]
  split <;> simp

theorem lt_two_zpow_floorLog2 {num den : Nat} (hden : den ≠ 0) :
    (num : ℚ) < den * 2 ^ (floorLog2 num den + 1) := by
  simp only [floorLog2]
  split
  case isTrue h => simpa using (scaled_lt_iff num den _).mp h
  case isFalse =>
    have hnum : (num : ℚ) < 2 ^ (num.log2 + 1) := by exact_mod_cast Nat.lt_log2_self
    have hlow : (2 : ℚ) ^ den.log2 ≤ den := by exact_mod_cast Nat.log2_self_le hden
    have hsplit : (2 : ℚ) ^ (num.log2 + 1) =
        2 ^ den.log2 * 2 ^ ((num.log2 : Int) - den.log2 + 1) := by
      rw [← zpow_natCast, ← zpow_natCast, ← zpow_add₀ (by norm_num)]
      congr 1
      push_cast
      ring
    calc (num : ℚ) < 2 ^ den.log2 * 2 ^ ((num.log2 : Int) - den.log2 + 1) := hsplit ▸ hnum
      _ ≤ den * 2 ^ ((num.log2 : Int) - den.log2 + 1) := by gcongr

variable {f : BinaryFormat} {num den : Nat} {x : Nat × Int}

/-- The exponent at which a quotient is rounded. -/
def roundingExponent (f : BinaryFormat) (num den : Nat) : Int :=
  max f.minExponent (floorLog2 num den - (Int.ofNat f.precision - 1))

/-- The significand that a quotient is rounded to. -/
def roundingSignificand (f : BinaryFormat) (num den : Nat) : Nat :=
  let q := f.roundingExponent num den
  roundQuotient .toEven (num * Nat.pow 2 (-q).toNat) (den * Nat.pow 2 q.toNat)

theorem round_eq (f : BinaryFormat) (hnum : num ≠ 0) (den : Nat) : f.round num den =
    let m := f.roundingSignificand num den
    let q := f.roundingExponent num den
    let (m, q) :=
      if m = Nat.pow 2 f.precision then (Nat.pow 2 (f.precision - 1), q + 1) else (m, q)
    if q ≤ f.maxExponent then some (m, q) else none := by
  rw [round, if_neg hnum]
  rfl

theorem roundingSignificand_le (f : BinaryFormat) (num den : Nat) :
    f.roundingSignificand num den ≤ 2 ^ f.precision := by
  simp only [roundingSignificand, Nat.pow_eq]
  refine (roundQuotient_le ..).trans ?_
  set q := f.roundingExponent num den with hq
  obtain rfl | hden := eq_or_ne den 0
  · simpa using Nat.one_le_two_pow
  have hfloor : floorLog2 num den + 1 ≤ f.precision + q := by
    have : floorLog2 num den - (Int.ofNat f.precision - 1) ≤ q := le_max_right ..
    simp only [Int.ofNat_eq_natCast] at this
    omega
  have hlt : (num : ℚ) < (den * 2 ^ f.precision : Nat) * 2 ^ q := by
    calc (num : ℚ) < den * 2 ^ (floorLog2 num den + 1) := lt_two_zpow_floorLog2 hden
      _ ≤ den * 2 ^ ((f.precision : Int) + q) := by gcongr; norm_num
      _ = (den * 2 ^ f.precision : Nat) * 2 ^ q := by
        rw [zpow_add₀ (by norm_num), zpow_natCast]
        push_cast
        ring
  have hquotient := (scaled_lt_iff num (den * 2 ^ f.precision) q).mpr hlt
  rw [mul_right_comm, mul_comm] at hquotient
  exact Nat.div_lt_of_lt_mul (by simpa [mul_comm, mul_assoc] using hquotient)

/-- What a quotient is rounded to is a number of the format, or a step above its largest. -/
theorem round_eq_some_or_none (f : BinaryFormat) (hp : 0 < f.precision) (hnum : num ≠ 0)
    (den : Nat) : ∃ m q, m < 2 ^ f.precision ∧ q ≤ f.roundingExponent num den + 1 ∧
      f.round num den = if q ≤ f.maxExponent then some (m, q) else none := by
  have hle := f.roundingSignificand_le num den
  have hhalf : 2 ^ (f.precision - 1) < 2 ^ f.precision :=
    Nat.pow_lt_pow_right (by decide) (by omega)
  rw [f.round_eq hnum den]
  simp only [Nat.pow_eq]
  by_cases hfull : f.roundingSignificand num den = 2 ^ f.precision
  · refine ⟨2 ^ (f.precision - 1), f.roundingExponent num den + 1, hhalf, le_rfl, ?_⟩
    rw [if_pos hfull]
  · refine ⟨f.roundingSignificand num den, f.roundingExponent num den, by omega, by omega, ?_⟩
    rw [if_neg hfull]

end BinaryFormat

/-! ## Numbers of 64 bits -/

/-- A number of 64 bits with an exponent up to `bound`. -/
def WithinDouble (bound : Int) (x : Nat × Int) : Prop := x.1 < 2 ^ 53 ∧ x.2 ≤ bound

namespace BinaryFormat

/-- A quotient that is not too large is rounded to a number of 64 bits. -/
theorem double_round (num den : Nat) (bound : Int) (h : (num.log2 : Int) - den.log2 ≤ bound + 51)
    (hlow : -1073 ≤ bound) (hhigh : bound ≤ 971) :
    ∃ x, double.round num den = some x ∧ WithinDouble bound x := by
  obtain rfl | hnum := eq_or_ne num 0
  · exact ⟨(0, -1074), rfl, by simp [WithinDouble]; omega⟩
  obtain ⟨m, q, hm, hq, hround⟩ := double.round_eq_some_or_none (by decide) hnum den
  have hfloor := floorLog2_le num den
  have hexponent : double.roundingExponent num den ≤ bound - 1 := by
    simp only [roundingExponent, double, Int.ofNat_eq_natCast]
    omega
  refine ⟨(m, q), ?_, hm, by simp only; omega⟩
  rw [hround, if_pos (by simp only [double]; omega)]

theorem log2_mul_two_pow_le {n k : Nat} (h : n < 2 ^ k) (a : Nat) :
    ((n * 2 ^ a).log2 : Int) ≤ k + a := by
  obtain hzero | hne := Nat.eq_zero_or_pos (n * 2 ^ a)
  · rw [hzero, Nat.log2_zero]
    positivity
  have : n * 2 ^ a < 2 ^ (k + a) := by
    rw [pow_add]
    gcongr
  have := (Nat.log2_lt hne.ne').mpr this
  omega

/-- The powers of ten up to 10³⁰⁸ are numbers of 64 bits. -/
theorem double_round_power : ∀ k ≤ 308, ∃ p, double.round (Nat.pow 10 k) 1 = some p ∧
    p.1 < 2 ^ 53 ∧ -53 ≤ p.2 ∧ (k ≤ 100 → p.2 ≤ 281) := by
  have table : ∀ k ≤ 308, (double.round (Nat.pow 10 k) 1).any fun p =>
      p.1 < 2 ^ 53 ∧ -53 ≤ p.2 ∧ (k ≤ 100 → p.2 ≤ 281) := by
    decide +kernel
  intro k hk
  obtain ⟨p, hp, h⟩ := Option.any_eq_true .. |>.mp (table k hk)
  exact ⟨p, hp, of_decide_eq_true h⟩

variable {x : Nat × Int}

/-- A moderate number times a moderate power of ten is in the range. -/
theorem double_multiply (hx : WithinDouble 100 x) {e : Int} (hpos : 0 ≤ e) (he : e ≤ 100) :
    ∃ y, double.scaleByTen x e = some y := by
  obtain ⟨p, hp, hsignificand, -, hexponent⟩ := double_round_power e.natAbs (by omega)
  have hproduct : x.1 * p.1 < 2 ^ 106 := by
    calc x.1 * p.1 < 2 ^ 53 * 2 ^ 53 := Nat.mul_lt_mul'' hx.1 hsignificand
      _ = 2 ^ 106 := by norm_num
  have hlog := log2_mul_two_pow_le hproduct (x.2 + p.2).toNat
  have hexponents := hx.2
  obtain ⟨y, hy, -⟩ := double_round (x.1 * p.1 * 2 ^ (x.2 + p.2).toNat) (2 ^ (-(x.2 + p.2)).toNat)
    971 (by omega) (by decide) le_rfl
  refine ⟨y, ?_⟩
  simp only [scaleByTen, hp, if_pos hpos]
  exact hy

/-- A number divided by a power of ten is in the range.  Powers of ten are not below one, so their
exponents are at least -53 and the quotient's exponent is not much larger. -/
theorem double_divide {bound : Int} (hx : WithinDouble bound x) (hlow : 0 ≤ bound)
    (hhigh : bound ≤ 900) {e : Int} (hneg : e < 0) (he : -308 ≤ e) :
    ∃ y, double.scaleByTen x e = some y ∧ WithinDouble (bound + 55) y := by
  obtain ⟨p, hp, -, hexponent, -⟩ := double_round_power e.natAbs (by omega)
  have hlog := log2_mul_two_pow_le hx.1 (x.2 - p.2).toNat
  have hexponents := hx.2
  obtain ⟨y, hy, hwithin⟩ := double_round (x.1 * 2 ^ (x.2 - p.2).toNat)
    (p.1 * 2 ^ (-(x.2 - p.2)).toNat) (bound + 55) (by omega) (by omega) (by omega)
  refine ⟨y, ?_, hwithin⟩
  simp only [scaleByTen, hp, if_neg (not_le.mpr hneg)]
  exact hy

end BinaryFormat

/-! ## Reading numerals -/

namespace Numeral

variable {n : Numeral}

theorem scaled_bounds (n : Numeral) : n.scaled.1 < 2 ^ 64 ∧
    n.scaled.2 ≤ n.exponent.getD 0 + (Decimal.digits n.whole).length := by
  have hzero : 0 < Nat.pow 2 64 := by decide
  have hbefore := Decimal.extend_lt hzero (Decimal.digits n.whole)
  refine ⟨Decimal.extend_lt hbefore _, ?_⟩
  simp only [scaled, Int.ofNat_eq_natCast]
  omega

/-- A numeral of moderate size is in the range of 64 bits. -/
theorem double?_isSome (h : n.exponent.getD 0 + (Decimal.digits n.whole).length ≤ 100) :
    n.double?.isSome := by
  obtain ⟨hm, he⟩ := n.scaled_bounds
  rw [double?]
  generalize n.scaled = scaled at hm he ⊢
  obtain ⟨m, e⟩ := scaled
  simp only at hm he ⊢
  split
  case isTrue => rfl
  case isFalse hsmall =>
    rw [if_neg (by omega)]
    have hlog : (m.log2 : Int) ≤ 64 := by simpa using BinaryFormat.log2_mul_two_pow_le hm 0
    obtain ⟨x, hx, hwithin⟩ := BinaryFormat.double_round m 1 100 (by omega) (by decide) (by decide)
    simp only [hx, Option.bind_eq_bind, Option.bind_some]
    split
    case isTrue hneg =>
      obtain ⟨y, hy, hfirst⟩ := BinaryFormat.double_divide hwithin (by decide) (by decide)
        (e := -308) (by decide) le_rfl
      rw [hy, Option.bind_some]
      obtain ⟨z, hz, -⟩ := BinaryFormat.double_divide hfirst (by decide) (by decide)
        (e := e + 308) (by omega) (by omega)
      rw [hz, Option.isSome_some]
    case isFalse =>
      obtain hneg | hpos := lt_or_ge e 0
      · obtain ⟨y, hy, -⟩ := BinaryFormat.double_divide hwithin (by decide) (by decide) hneg
          (by omega)
        rw [hy, Option.isSome_some]
      · obtain ⟨y, hy⟩ := BinaryFormat.double_multiply hwithin hpos (by omega)
        rw [hy, Option.isSome_some]

/-- A numeral of moderate size is read. -/
theorem single?_isSome (h : n.exponent.getD 0 + (Decimal.digits n.whole).length ≤ 100) :
    n.single?.isSome := by
  rw [single?]
  split
  case isTrue => rfl
  case isFalse => simpa [viaDouble?] using double?_isSome h

end Numeral

/-! ## The shortest digits -/

namespace Single

/-- Whether a number is finite. -/
def isFinite (x : Float32) : Bool :=
  match parts x with
  | .finite .. => true
  | _ => false

theorem parts_bounds {x : Float32} {negative : Bool} {m : Nat} {q : Int}
    (h : parts x = .finite negative m q) : m < 2 ^ 24 ∧ q ≤ 104 := by
  simp only [parts, Nat.pow_eq] at h
  generalize x.toBits.toNat = bits at h
  split at h
  case isTrue => split at h <;> exact nomatch h
  case isFalse =>
    split at h
    case isTrue =>
      obtain ⟨-, rfl, rfl⟩ := Parts.finite.inj h
      omega
    case isFalse =>
      obtain ⟨-, rfl, rfl⟩ := Parts.finite.inj h
      simp only [Int.ofNat_eq_natCast]
      omega

/-- Below one the search only goes down, so the digits before the point are a bound. -/
theorem floorLog10_le (fuel num den : Nat) :
    floorLog10 fuel num den ≤ (Decimal.digits (num / den)).length - 1 := by
  induction fuel generalizing num with
  | zero =>
    have := Decimal.length_digits_pos (num / den)
    simp only [floorLog10]
    omega
  | succ fuel ih =>
    have hpos := Decimal.length_digits_pos (num / den)
    rw [floorLog10]
    split
    case isTrue hlt =>
      have hdigit : (Decimal.digits (10 * num / den)).length ≤ 1 :=
        Decimal.length_digits_le (by decide)
          (Nat.div_lt_of_lt_mul (by rw [mul_comm den]; omega))
      have := ih (10 * num)
      omega
    case isFalse =>
      simp only [Int.ofNat_eq_natCast]
      omega

variable {m : Nat} {q : Int}

/-- The whole part of a finite number has at most 39 digits. -/
theorem scaled_lt (hm : m < 2 ^ 24) (hq : q ≤ 104) : m * 2 ^ q.toNat < 10 ^ 39 := by
  calc m * 2 ^ q.toNat < 2 ^ 24 * 2 ^ q.toNat := by gcongr
    _ ≤ 2 ^ 24 * 2 ^ 104 := by gcongr <;> omega
    _ < 10 ^ 39 := by decide

theorem shortestFrom_bound (tie : Tie) (hm : m < 2 ^ 24) (hq : q ≤ 104) {e : Int} (he : e ≤ 38)
    (fuel count : Nat) (hcount : 1 ≤ count) :
    (shortestFrom tie m q e fuel count).2 +
      (Decimal.digits (shortestFrom tie m q e fuel count).1).length ≤ 80 := by
  induction fuel generalizing count with
  | zero =>
    have : (Decimal.digits m).length ≤ 8 := Decimal.length_digits_le (by decide) (by omega)
    simp only [shortestFrom]
    omega
  | succ fuel ih =>
    rw [shortestFrom]
    simp only [Nat.pow_eq, Int.ofNat_eq_natCast]
    set s : Int := e - count + 1
    set num := m * 2 ^ q.toNat * 10 ^ (-s).toNat
    set den := 2 ^ (-q).toNat * 10 ^ s.toNat
    have hlength {r : Nat} (hr : r ≤ num / den + 1) :
        s + (Decimal.digits r).length ≤ 80 := by
      have hnum : num < 10 ^ (39 + (-s).toNat) := by
        rw [pow_add]
        exact Nat.mul_lt_mul_of_pos_right (scaled_lt hm hq) (by positivity)
      have hr10 : r < 10 ^ (40 + (-s).toNat) := by
        have := Nat.div_le_self num den
        rw [show 40 + (-s).toNat = 39 + (-s).toNat + 1 by omega, pow_succ]
        omega
      have := Decimal.length_digits_le (by omega) hr10
      omega
    split
    · exact hlength (BinaryFormat.roundQuotient_le tie num den)
    · exact hlength (by omega)
    · exact hlength le_rfl
    · exact ih (count + 1) (by omega)

/-- The shortest digits of a finite number are moderate. -/
theorem shortest_bound (tie : Tie) (hm : m < 2 ^ 24) (hq : q ≤ 104) :
    (shortest tie m q).2 + (Decimal.digits (shortest tie m q).1).length ≤ 100 := by
  rw [shortest]
  split
  case isTrue => decide
  case isFalse =>
    have he : floorLog10 50 (m * 2 ^ q.toNat) (2 ^ (-q).toNat) ≤ 38 := by
      have hdigits : (Decimal.digits (m * 2 ^ q.toNat / 2 ^ (-q).toNat)).length ≤ 39 :=
        Decimal.length_digits_le (by decide) ((Nat.div_le_self ..).trans_lt (scaled_lt hm hq))
      have := floorLog10_le 50 (m * 2 ^ q.toNat) (2 ^ (-q).toNat)
      omega
    have hfrom := shortestFrom_bound tie hm hq he 12 1 le_rfl
    simp only [Nat.pow_eq]
    generalize shortestFrom tie m q _ 12 1 = found at hfrom ⊢
    obtain ⟨n, s⟩ := found
    obtain ⟨hle, hzeros⟩ := Decimal.dropZeros_le 12 n
    have := Decimal.length_digits_mono hle
    simp only [Int.ofNat_eq_natCast] at hfrom ⊢
    omega

/-! ## Numerals of numbers -/

/-- The two sides of the point are digits, and there are some before it. -/
theorem pointSplit_digits (n : Nat) (s : Int) :
    (∀ c ∈ (pointSplit n s).1, c.isDigit) ∧ (∀ c ∈ (pointSplit n s).2, c.isDigit) ∧
      (pointSplit n s).1 ≠ [] := by
  have hdigit : ∀ c ∈ Decimal.digits n, c.isDigit := fun _ => Decimal.isDigit_of_mem_digits
  have hzero : ('0' : Char).isDigit := rfl
  simp only [pointSplit]
  split
  case isTrue => simp +contextual [or_imp, hdigit, List.mem_replicate, hzero]
  case isFalse =>
    set places := (-s).toNat
    have hpadded : ∀ c ∈ List.replicate (places + 1 - (Decimal.digits n).length) '0' ++
        Decimal.digits n, c.isDigit := by
      simp +contextual [or_imp, hdigit, List.mem_replicate, hzero]
    refine ⟨fun c hc => hpadded c (List.mem_of_mem_take hc),
      fun c hc => hpadded c (List.mem_of_mem_drop hc), ?_⟩
    simp only [ne_eq, ← List.length_eq_zero_iff, List.length_take, List.length_append,
      List.length_replicate]
    omega

/-- There is one digit before the point at least, and no more than the size of the number asks
for. -/
theorem length_pointSplit_le (n : Nat) (s : Int) :
    ((pointSplit n s).1.length : Int) ≤ max 1 (s + (Decimal.digits n).length) := by
  simp only [pointSplit]
  split
  case isTrue =>
    simp only [List.length_append, List.length_replicate]
    omega
  case isFalse =>
    simp only [List.length_take, List.length_append, List.length_replicate]
    omega

/-- A finite number has a numeral, which can be read; other numbers have none. -/
theorem exists_numeral? {x : Float32} (h : isFinite x) :
    ∃ n, numeral? x = some n ∧ n.Legible ∧ n.single?.isSome := by
  obtain ⟨negative, m, q, hparts⟩ : ∃ negative m q, parts x = .finite negative m q := by
    rw [isFinite] at h
    split at h
    case h_1 hparts => exact ⟨_, _, _, hparts⟩
    case h_2 => exact nomatch h
  obtain ⟨hm, hq⟩ := parts_bounds hparts
  have hbound := shortest_bound .toEven hm hq
  rw [numeral?, hparts]
  simp only
  generalize shortest .toEven m q = decimal at hbound ⊢
  obtain ⟨n, s⟩ := decimal
  simp only [Int.ofNat_eq_natCast] at hbound ⊢
  split
  case isTrue hplain =>
    obtain ⟨hwhole, hfraction, hne⟩ := pointSplit_digits n s
    have hlength := length_pointSplit_le n s
    have hread := Decimal.length_digits_ofDigits_le hne hwhole
    refine ⟨_, rfl, ?_, Numeral.single?_isSome (by simp only [Option.getD_none]; omega)⟩
    rw [Numeral.Legible]
    split
    · simp
    · exact hfraction
  case isFalse hscientific =>
    have hdigit : ∀ c ∈ Decimal.digits n, c.isDigit := fun _ => Decimal.isDigit_of_mem_digits
    have hread : (Decimal.digits (Decimal.ofDigits ((Decimal.digits n).take 1))).length ≤ 1 :=
      (Decimal.length_digits_ofDigits_le (by simp)
        fun c hc => hdigit c (List.mem_of_mem_take hc)).trans (List.length_take_le ..)
    refine ⟨_, rfl, fun c hc => hdigit c (List.mem_of_mem_drop hc),
      Numeral.single?_isSome (by simp only [Option.getD_some]; omega)⟩

theorem numeral?_eq_none {x : Float32} (h : isFinite x = false) : numeral? x = none := by
  rw [isFinite] at h
  rw [numeral?]
  split
  case h_1 hparts => simp [hparts] at h
  case h_2 => rfl

end Single

end LayerNet
