/-!
# Floating-point numbers

A floating-point number is a value: not a number, an infinity, a signed zero, or an exact
rational. A `Format` says which rationals it can hold: those with at most `precision` significant
bits that are multiples of the least unit and lie below the overflow bound. `Format.round` takes
a rational to the nearest one a format holds, a tie going to the even neighbour; all arithmetic
is exact arithmetic followed by one rounding.

The numbers of a script are of format `single`; they are computed through format `double`.
-/

namespace DialogScript

/-- A floating-point number. The value of `finite` is not zero. -/
inductive Floating where
  | nan
  | infinite (negative : Bool)
  | zero (negative : Bool)
  | finite (value : Rat)
  deriving DecidableEq, Inhabited

/-- A binary format: how many significant bits it keeps, the exponent of its least unit, and the
exponent of the power of two at which it overflows. -/
structure Format where
  precision : Nat
  leastExponent : Int
  overflowExponent : Nat
  deriving DecidableEq

namespace Format

/-- Single precision. -/
def single : Format := ⟨24, -149, 128⟩

/-- Double precision. -/
def double : Format := ⟨53, -1074, 1024⟩

end Format

namespace Floating

/-- A power of two. -/
def pow2 (e : Int) : Rat := (2 : Rat) ^ e

/-- The magnitude of a rational. -/
def magnitude (q : Rat) : Rat := if q < 0 then -q else q

/-- The exponent of the greatest power of two that is at most the positive rational `q`. -/
def floorLog2 (q : Rat) : Int :=
  let guess := (q.num.natAbs.log2 : Int) - (q.den.log2 : Int)
  if pow2 guess ≤ q then guess else guess - 1

/-- The integer nearest to a rational; of two equally near ones the even one. -/
def nearestEven (q : Rat) : Int :=
  let below := q.floor
  let rest := q - (below : Rat)
  if rest < mkRat 1 2 then below
  else if mkRat 1 2 < rest then below + 1
  else if below % 2 = 0 then below
  else below + 1

end Floating

namespace Format

open Floating

/-- The exponent of the grid on which a format holds the numbers around `q`. -/
def gridExponent (f : Format) (q : Rat) : Int :=
  max f.leastExponent (floorLog2 (magnitude q) - ((f.precision : Int) - 1))

/-- The multiple of the grid unit nearest to `q`. -/
def onGrid (f : Format) (q : Rat) : Rat :=
  let unit := pow2 (f.gridExponent q)
  (nearestEven (q / unit) : Rat) * unit

/-- The number of a format nearest to a rational. What rounds beyond the greatest finite number
is infinite, what rounds to zero keeps its sign. -/
def round (f : Format) (q : Rat) : Floating :=
  let nearest := f.onGrid q
  if nearest = 0 then .zero (decide (q < 0))
  else if pow2 (f.overflowExponent : Int) ≤ magnitude nearest then .infinite (decide (q < 0))
  else .finite nearest

/-- Brings a floating-point number into a format. -/
def narrow (f : Format) : Floating → Floating
  | .nan => .nan
  | .infinite s => .infinite s
  | .zero s => .zero s
  | .finite q => f.round q

end Format

namespace Floating

/-- The nearest number of single precision. -/
def toSingle (x : Floating) : Floating := Format.single.narrow x

/-- The exact value of a number that is neither infinite nor undefined. -/
def toRat? : Floating → Option Rat
  | .nan => none
  | .infinite _ => none
  | .zero _ => some 0
  | .finite q => some q

/-- Whether a number carries a minus sign; an undefined number carries none. -/
def isNegative : Floating → Bool
  | .nan => false
  | .infinite s => s
  | .zero s => s
  | .finite q => decide (q < 0)

/-- Whether a number is a zero of either sign. -/
def isZero : Floating → Bool
  | .zero _ => true
  | _ => false

/-- The double nearest to an integer. -/
def ofInt (n : Int) : Floating := Format.double.round (n : Rat)

end Floating

end DialogScript
