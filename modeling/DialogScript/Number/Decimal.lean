import DialogScript.Number.Floating

/-!
# Decimal numbers

A decimal is a coefficient times a power of ten. `Decimal.nearest` is the decimal with a given
number of significant digits that lies nearest to a positive rational, and
`Decimal.shortest` the one with the fewest digits that a format reads back as the same number.
`Decimal.toFloating` reads a decimal into a format.
-/

namespace DialogScript

/-- The number `coefficient * 10 ^ exponent`. -/
structure Decimal where
  coefficient : Nat
  exponent : Int
  deriving DecidableEq

namespace Decimal

open Floating

/-- A power of ten. -/
def pow10 (e : Int) : Rat := (10 : Rat) ^ e

/-- The decimal digits of a number, most significant first. -/
def digits (n : Nat) : List Char := Nat.toDigits 10 n

/-- How many decimal digits a number has. -/
def digitCount (n : Nat) : Nat := (digits n).length

/-- The value of a decimal. -/
def toRat (d : Decimal) : Rat := (d.coefficient : Rat) * pow10 d.exponent

/-- The exponent of the greatest power of ten that is at most the positive rational `q`. -/
def floorLog10 (q : Rat) : Int :=
  let guess := (digitCount q.num.natAbs : Int) - (digitCount q.den : Int)
  if pow10 guess ≤ q then guess else guess - 1

/-- The exponent of the last of `count` significant digits of the positive rational `q`. -/
def lastExponent (count : Nat) (q : Rat) : Int := floorLog10 q - ((count : Int) - 1)

/-- The decimal of `count` significant digits nearest to the positive rational `q`; of two
equally near ones the one with the even last digit. -/
def nearest (count : Nat) (q : Rat) : Decimal :=
  let exponent := lastExponent count q
  ⟨(nearestEven (q / pow10 exponent)).toNat, exponent⟩

/-- Reads a decimal into a format. A coefficient so long or an exponent so far out that the
result is beyond the format on either side is settled without computing the power of ten. -/
def toFloating (f : Format) (negative : Bool) (d : Decimal) : Floating :=
  let size := (digitCount d.coefficient : Int) + d.exponent
  if d.coefficient = 0 then .zero negative
  else if (f.overflowExponent : Int) < size then .infinite negative
  else if size < f.leastExponent - 1 then .zero negative
  else
    let q := d.toRat
    f.round (if negative then -q else q)

/-- The exponent of the leading digit. -/
def leadExponent (d : Decimal) : Int := d.exponent + (digitCount d.coefficient : Int) - 1

/-- The significant digits without trailing zeros. -/
def significantDigits (d : Decimal) : List Char :=
  ((digits d.coefficient).reverse.dropWhile (· == '0')).reverse

/-- The decimals of `count` significant digits next to the positive rational `q`, the nearer one
first. -/
def neighbours (count : Nat) (q : Rat) : List Decimal :=
  let exponent := lastExponent count q
  let below := (q / pow10 exponent).floor.toNat
  let near := (nearestEven (q / pow10 exponent)).toNat
  let far := if near = below then below + 1 else below
  [⟨near, exponent⟩, ⟨far, exponent⟩]

/-- The decimal with the fewest digits, at most `count + fuel`, that the format reads back as
the positive number `q`; the nearest one of these. -/
def shortestFrom (f : Format) (q : Rat) : (fuel count : Nat) → Decimal
  | 0, count => nearest count q
  | fuel + 1, count =>
    match (neighbours count q).find? fun d => d.toFloating f false == .finite q with
    | some d => d
    | none => shortestFrom f q fuel (count + 1)

/-- The decimal with the fewest digits that reads back as the double `q`, which is positive;
seventeen digits always do. -/
def shortest (q : Rat) : Decimal := shortestFrom .double q 16 1

end Decimal

end DialogScript
