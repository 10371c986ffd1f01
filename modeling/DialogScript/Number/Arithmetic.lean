import DialogScript.Number.Floating

/-!
# Arithmetic

Sums, differences, products, quotients and remainders of floating-point numbers in a given format,
and their order. Each operation computes the exact rational result and rounds it once; the special
cases are those of infinities, zeros and undefined numbers. A remainder keeps the sign of its
dividend and is always exact. Integers have a remainder of the same kind.
-/

namespace DialogScript

namespace Floating

/-- The number with the opposite sign. -/
def neg : Floating → Floating
  | .nan => .nan
  | .infinite s => .infinite (!s)
  | .zero s => .zero (!s)
  | .finite q => .finite (-q)

/-- The number without its sign. -/
def abs (x : Floating) : Floating := if x.isNegative then x.neg else x

/-- The sum in a format. Infinities of opposite signs have no sum; an exact zero is positive
unless both operands are negative zeros. -/
def add (f : Format) : Floating → Floating → Floating
  | .nan, _ => .nan
  | _, .nan => .nan
  | .infinite s, .infinite t => if s = t then .infinite s else .nan
  | .infinite s, _ => .infinite s
  | _, .infinite t => .infinite t
  | .zero s, .zero t => .zero (s && t)
  | .zero _, .finite q => f.round q
  | .finite p, .zero _ => f.round p
  | .finite p, .finite q => f.round (p + q)

/-- The difference in a format. -/
def sub (f : Format) (x y : Floating) : Floating := add f x y.neg

/-- The product in a format. Zero times an infinity is undefined. -/
def mul (f : Format) : Floating → Floating → Floating
  | .nan, _ => .nan
  | _, .nan => .nan
  | .infinite _, .zero _ => .nan
  | .zero _, .infinite _ => .nan
  | .finite p, .finite q => f.round (p * q)
  | .zero s, y => .zero (s != y.isNegative)
  | x, .zero t => .zero (x.isNegative != t)
  | .infinite s, y => .infinite (s != y.isNegative)
  | x, .infinite t => .infinite (x.isNegative != t)

/-- The quotient in a format. A quotient by zero is infinite, and undefined if the dividend is
zero too. -/
def div (f : Format) : Floating → Floating → Floating
  | .nan, _ => .nan
  | _, .nan => .nan
  | .infinite _, .infinite _ => .nan
  | .zero _, .zero _ => .nan
  | .finite p, .finite q => f.round (p / q)
  | .infinite s, y => .infinite (s != y.isNegative)
  | x, .infinite t => .zero (x.isNegative != t)
  | .zero s, y => .zero (s != y.isNegative)
  | x, .zero t => .infinite (x.isNegative != t)

/-- The integer part of a rational, toward zero. -/
def truncate (q : Rat) : Int := if q < 0 then -(-q).floor else q.floor

/-- The remainder of the division toward zero, with the sign of the dividend. An infinite
dividend or a zero divisor has no remainder. -/
def mod : Floating → Floating → Floating
  | .nan, _ => .nan
  | _, .nan => .nan
  | .infinite _, _ => .nan
  | _, .zero _ => .nan
  | x, .infinite _ => x
  | .zero s, _ => .zero s
  | .finite p, .finite q =>
    let rest := p - (truncate (p / q) : Rat) * q
    if rest = 0 then .zero (decide (p < 0)) else .finite rest

/-- The order of floating-point numbers. An undefined number is below no number and no number is
below it; zeros of either sign are equal. -/
def lt : Floating → Floating → Bool
  | .nan, _ => false
  | _, .nan => false
  | .infinite s, .infinite t => s && !t
  | .infinite s, _ => s
  | _, .infinite t => !t
  | x, y => decide ((x.toRat?).getD 0 < (y.toRat?).getD 0)

end Floating

/-- The remainder of the division of integers toward zero, with the sign of the dividend. A zero
divisor leaves none. -/
def remainder? (a b : Int) : Option Int := if b = 0 then none else some (a.tmod b)

/-- The text for a zero divisor. -/
def zeroDivisorMessage : String := "integer modulo by zero"

end DialogScript
