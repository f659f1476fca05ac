/-!
# Decimal digits

Numbers as the digits that stand for them, and digits as the number they stand for.
-/

namespace LayerNet.Decimal

/-- The digits of a number, the first of them not zero unless it is the only one. -/
def digits (n : Nat) : List Char := Nat.toDigits 10 n

/-- The number that a character stands for as a decimal digit. -/
def digitValue (c : Char) : Nat := c.toNat - '0'.toNat

/-- The number that a list of digits stands for. -/
def ofDigits (ds : List Char) : Nat := ds.foldl (fun n c => 10 * n + digitValue c) 0

/-- The number `n` followed by digits, as many of them as keep it below `bound`; and how many these
are. -/
def extend (bound : Nat) : Nat → List Char → Nat × Nat
  | n, [] => (n, 0)
  | n, d :: ds =>
    if 10 * n + digitValue d < bound then
      let (m, count) := extend bound (10 * n + digitValue d) ds
      (m, count + 1)
    else (n, 0)

/-- A number without the zeros at its end, and how many there were; at most `fuel` are taken. -/
def dropZeros : Nat → Nat → Nat × Nat
  | 0, n => (n, 0)
  | fuel + 1, n =>
    if n % 10 = 0 ∧ n ≠ 0 then
      let (m, k) := dropZeros fuel (n / 10)
      (m, k + 1)
    else (n, 0)

end LayerNet.Decimal
