import LayerNet.Json.Value
import LayerNet.Number.Single

/-!
# Numbers of 32 bits in JSON

A number is written with its shortest digits: with a point and at least one digit behind it from
10⁻⁶ up to, but not including, 10¹³, and with an exponent beyond.  Numbers that are not finite are
written as null, which is not read back.

A numeral is read in steps, each of which rounds.  The digits that fit into 64 bits make up an
integer, which is rounded to a number of 64 bits; this is multiplied or divided by a power of ten,
itself a number of 64 bits, where the result may be out of range; and that is rounded to 32 bits,
where a number out of range is infinite.  So a numeral may be read as a neighbour of the number that
is nearest to it.  Integers of up to 64 bits are rounded to 32 bits at once.
-/

namespace LayerNet

namespace Numeral

/-- The digits of the numeral that fit into 64 bits, as an integer, and the power of ten that goes
with it.  A digit before the point that does not fit ends the integer part, and the digits behind
the point that still fit follow. -/
def scaled (n : Numeral) : Nat × Int :=
  let digits := Decimal.digits n.whole
  let (m, before) := Decimal.extend (Nat.pow 2 64) 0 digits
  let (m, behind) := Decimal.extend (Nat.pow 2 64) m n.fraction
  (m, n.exponent.getD 0 + Int.ofNat (digits.length - before) - Int.ofNat behind)

/-- The numeral as a number of 64 bits, by significand and exponent; nothing if it is out of range.
There are powers of ten up to 10³⁰⁸, so a smaller number is divided twice; two divisions by 10³⁰⁸
leave nothing of an integer of 64 bits. -/
def double? (n : Numeral) : Option (Nat × Int) :=
  let (m, e) := n.scaled
  if m = 0 ∨ e < -616 then some (0, 0)
  else if 308 < e then none
  else do
    let x ← BinaryFormat.double.round m 1
    if e < -308 then
      let x ← BinaryFormat.double.scaleByTen x (-308)
      BinaryFormat.double.scaleByTen x (e + 308)
    else BinaryFormat.double.scaleByTen x e

/-- The number of 32 bits nearest to the numeral as a number of 64 bits. -/
def viaDouble? (n : Numeral) : Option Float32 :=
  n.double?.map fun (m, q) =>
    Single.assemble n.negative (BinaryFormat.single.roundScaled m q)

/-- Whether the numeral is an integer of 64 bits, with or without sign. -/
def isWord (n : Numeral) : Bool :=
  n.fraction.isEmpty && n.exponent.isNone &&
    if n.negative then 0 < n.whole && n.whole ≤ Nat.pow 2 63 else n.whole < Nat.pow 2 64

/-- The number of 32 bits that the numeral stands for. -/
def single? (n : Numeral) : Option Float32 :=
  if n.isWord then some (Single.ofQuotient n.negative n.whole 1) else n.viaDouble?

end Numeral

namespace Single

/-- The numeral of a finite number. -/
def numeral? (x : Float32) : Option Numeral :=
  match parts x with
  | .finite negative m q =>
    let (n, s) := shortest .toEven m q
    let ds := Decimal.digits n
    let e := s + Int.ofNat ds.length - 1
    if -6 ≤ e ∧ e ≤ 12 then
      let (whole, fraction) := pointSplit n s
      some { negative, whole := Decimal.ofDigits whole,
             fraction := if fraction.isEmpty then ['0'] else fraction }
    else
      some { negative, whole := Decimal.ofDigits (ds.take 1), fraction := ds.drop 1,
             exponent := some e }
  | _ => none

/-- A number as a JSON value. -/
def toJson (x : Float32) : Json := Json.ofOption Json.number (numeral? x)

/-- The number `n · 10 ^ (-places)`. -/
def decimal (n places : Nat) : Float32 := ofQuotient false n (Nat.pow 10 places)

end Single

end LayerNet
