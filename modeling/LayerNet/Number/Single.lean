import LayerNet.Number.Binary
import LayerNet.Number.Decimal

/-!
# Numbers of 32 bits and their text

Positions and numeric parameters are floating-point numbers of 32 bits.  Their text has the fewest
digits that read back to the same number, and among those the digits nearest to it.  It comes in two
layouts: the one of JSON (`LayerNet.Json.Single`) changes to an exponent for very large and very
small numbers and takes the even one of two equally near decimals, `Single.plain` never uses an
exponent and takes the larger one.
-/

namespace LayerNet.Single

/-- A number of 32 bits, taken apart. -/
inductive Parts where
  | nan
  | infinite (negative : Bool)
  /-- The number `m · 2 ^ q`, or its negative. -/
  | finite (negative : Bool) (m : Nat) (q : Int)
  deriving DecidableEq, Repr

/-- The parts of a number, read off its bits. -/
def parts (x : Float32) : Parts :=
  let bits := x.toBits.toNat
  let negative := Nat.pow 2 31 ≤ bits
  let exponent := bits / Nat.pow 2 23 % Nat.pow 2 8
  let fraction := bits % Nat.pow 2 23
  if exponent = 255 then if fraction = 0 then .infinite negative else .nan
  else if exponent = 0 then .finite negative fraction (-149)
  else .finite negative (Nat.pow 2 23 + fraction) (Int.ofNat exponent - 150)

/-- The number with the given sign and with the significand and exponent of its format; infinity if
there are none. -/
def assemble (negative : Bool) (rounded : Option (Nat × Int)) : Float32 :=
  let sign := if negative then Nat.pow 2 31 else 0
  let magnitude := match rounded with
    | none => 255 * Nat.pow 2 23
    | some (m, q) =>
      if m < Nat.pow 2 23 then m else (q + 150).toNat * Nat.pow 2 23 + (m - Nat.pow 2 23)
  Float32.ofBits (UInt32.ofNat (sign + magnitude))

/-- The number nearest to `num / den`. -/
def ofQuotient (negative : Bool) (num den : Nat) : Float32 :=
  assemble negative (BinaryFormat.single.round num den)

/-! ## The fewest digits -/

/-- Whether `n · 10 ^ s` is rounded to `m · 2 ^ q`: it lies between the midpoints to the neighbours
of this number, which themselves are rounded to it if `m` is even.  The neighbour below the first
number with a new exponent is only half as far away. -/
def isRoundedTo (m : Nat) (q : Int) (n : Nat) (s : Int) : Bool :=
  let below := if m = Nat.pow 2 23 ∧ -149 < q then 1 else 2
  let value := 4 * n * Nat.pow 10 s.toNat * Nat.pow 2 (-q).toNat
  let unit := Nat.pow 10 (-s).toNat * Nat.pow 2 q.toNat
  let low := (4 * m - below) * unit
  let high := (4 * m + 2) * unit
  if m % 2 = 0 then low ≤ value && value ≤ high else low < value && value < high

/-- The largest `e` with `10 ^ e ≤ num / den`, for positive numbers; `fuel` bounds the search below
one. -/
def floorLog10 : Nat → Nat → Nat → Int
  | 0, _, _ => 0
  | fuel + 1, num, den =>
    if num < den then floorLog10 fuel (10 * num) den - 1
    else Int.ofNat ((Decimal.digits (num / den)).length - 1)

/-- The shortest digits among those with at least `count` digits, and their exponent.  On each grid
only the neighbours of the number can be rounded to it; of two that are the nearer one is taken. -/
def shortestFrom (tie : Tie) (m : Nat) (q : Int) (e : Int) : Nat → Nat → Nat × Int
  | 0, _ => (m, 0)
  | fuel + 1, count =>
    let s := e - Int.ofNat count + 1
    let num := m * Nat.pow 2 q.toNat * Nat.pow 10 (-s).toNat
    let den := Nat.pow 2 (-q).toNat * Nat.pow 10 s.toNat
    let n := num / den
    match isRoundedTo m q n s, isRoundedTo m q (n + 1) s with
    | true, true => (BinaryFormat.roundQuotient tie num den, s)
    | true, false => (n, s)
    | false, true => (n + 1, s)
    | false, false => shortestFrom tie m q e fuel (count + 1)

/-- The digits and the exponent of the shortest decimal that is rounded to `m · 2 ^ q`. -/
def shortest (tie : Tie) (m : Nat) (q : Int) : Nat × Int :=
  if m = 0 then (0, 0)
  else
    let e := floorLog10 50 (m * Nat.pow 2 q.toNat) (Nat.pow 2 (-q).toNat)
    let (n, s) := shortestFrom tie m q e 12 1
    let (n, zeros) := Decimal.dropZeros 12 n
    (n, s + Int.ofNat zeros)

/-! ## Layouts -/

/-- The digits of a decimal before and behind the point. -/
def pointSplit (n : Nat) (s : Int) : List Char × List Char :=
  let ds := Decimal.digits n
  if 0 ≤ s then (ds ++ List.replicate s.toNat '0', [])
  else
    let places := (-s).toNat
    let padded := List.replicate (places + 1 - ds.length) '0' ++ ds
    (padded.take (padded.length - places), padded.drop (padded.length - places))

/-- A finite number without an exponent and without a point behind an integer; the names of the
other numbers. -/
def plain (x : Float32) : String :=
  match parts x with
  | .nan => "NaN"
  | .infinite false => "inf"
  | .infinite true => "-inf"
  | .finite negative m q =>
    let (n, s) := shortest .up m q
    let (whole, fraction) := pointSplit n s
    String.ofList ((if negative then ['-'] else []) ++ whole ++
      (if fraction.isEmpty then [] else '.' :: fraction))

end LayerNet.Single
