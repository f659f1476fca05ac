/-!
# Rounding to binary formats

A binary format holds the numbers `m · 2 ^ q` whose significand `m` has a limited number of bits and
whose exponent `q` lies in a limited range.  A quotient is rounded to the nearest of them; of two
equally near ones to that with the even significand.  Arithmetic on such numbers is exact
arithmetic whose result is rounded once.
-/

namespace LayerNet

/-- Which of two equally near numbers is taken. -/
inductive Tie where
  /-- The one with an even last digit. -/
  | toEven
  /-- The larger one. -/
  | up
  deriving DecidableEq, Repr

/-- The numbers `m · 2 ^ q` with `m < 2 ^ precision` and `minExponent ≤ q ≤ maxExponent`. -/
structure BinaryFormat where
  precision : Nat
  minExponent : Int
  maxExponent : Int

namespace BinaryFormat

/-- Numbers of 32 bits. -/
def single : BinaryFormat := ⟨24, -149, 104⟩

/-- Numbers of 64 bits. -/
def double : BinaryFormat := ⟨53, -1074, 971⟩

/-- The integer nearest to `num / den`. -/
def roundQuotient (tie : Tie) (num den : Nat) : Nat :=
  let q := num / den
  let twice := 2 * (num % den)
  if twice < den then q
  else if den < twice then q + 1
  else match tie with
    | .toEven => q + q % 2
    | .up => q + 1

/-- The integer `q` with `2 ^ q ≤ num / den < 2 ^ (q + 1)`, for positive numbers. -/
def floorLog2 (num den : Nat) : Int :=
  let q : Int := Int.ofNat num.log2 - Int.ofNat den.log2
  if num * Nat.pow 2 (-q).toNat < den * Nat.pow 2 q.toNat then q - 1 else q

/-- The number of the format that is nearest to `num / den`, as its significand and exponent.
Nothing if it is above all numbers of the format by half a step or more. -/
def round (f : BinaryFormat) (num den : Nat) : Option (Nat × Int) :=
  if num = 0 then some (0, f.minExponent)
  else
    let q := max f.minExponent (floorLog2 num den - (Int.ofNat f.precision - 1))
    let m := roundQuotient .toEven (num * Nat.pow 2 (-q).toNat) (den * Nat.pow 2 q.toNat)
    let (m, q) :=
      if m = Nat.pow 2 f.precision then (Nat.pow 2 (f.precision - 1), q + 1) else (m, q)
    if q ≤ f.maxExponent then some (m, q) else none

/-- The number of the format that is nearest to `m · 2 ^ q`. -/
def roundScaled (f : BinaryFormat) (m : Nat) (q : Int) : Option (Nat × Int) :=
  f.round (m * Nat.pow 2 q.toNat) (Nat.pow 2 (-q).toNat)

/-- The number of the format that is nearest to a product. -/
def mul (f : BinaryFormat) (x y : Nat × Int) : Option (Nat × Int) :=
  f.roundScaled (x.1 * y.1) (x.2 + y.2)

/-- The number of the format that is nearest to a quotient. -/
def div (f : BinaryFormat) (x y : Nat × Int) : Option (Nat × Int) :=
  let q := x.2 - y.2
  f.round (x.1 * Nat.pow 2 q.toNat) (y.1 * Nat.pow 2 (-q).toNat)

/-- A number multiplied by `10 ^ e`, or divided by `10 ^ (-e)` if `e` is negative.  Both the power
of ten and the result are rounded. -/
def scaleByTen (f : BinaryFormat) (x : Nat × Int) (e : Int) : Option (Nat × Int) :=
  match f.round (Nat.pow 10 e.natAbs) 1 with
  | none => none
  | some power => if 0 ≤ e then f.mul x power else f.div x power

end BinaryFormat

end LayerNet
