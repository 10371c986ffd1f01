import DialogScript.Number.Floating

/-!
# Interchange encoding

A floating-point number as the bit pattern of its format: a sign bit, a biased exponent and a
fraction. The greatest exponent field stands for infinities and, with a fraction, for undefined
numbers; the least one for zeros and for numbers on the coarsest grid.
-/

namespace DialogScript

namespace Format

open Floating

/-- How many bits the fraction has. -/
def fractionBits (f : Format) : Nat := f.precision - 1

/-- How many bits the exponent field has. -/
def exponentBits (f : Format) : Nat := f.overflowExponent.log2 + 1

/-- The greatest value of the exponent field. -/
def greatestField (f : Format) : Nat := (1 <<< f.exponentBits) - 1

/-- The number that a bit pattern stands for. -/
def decode (f : Format) (bits : Nat) : Floating :=
  let fraction := bits % (1 <<< f.fractionBits)
  let field := (bits >>> f.fractionBits) % (1 <<< f.exponentBits)
  let negative := (bits >>> (f.fractionBits + f.exponentBits)) % 2 == 1
  if field = f.greatestField then
    if fraction = 0 then .infinite negative else .nan
  else
    let significand := if field = 0 then fraction else fraction + (1 <<< f.fractionBits)
    let exponent := f.leastExponent + ((field - 1 : Nat) : Int)
    if significand = 0 then .zero negative
    else
      let value := ((significand : Nat) : Rat) * pow2 exponent
      .finite (if negative then -value else value)

/-- The bit pattern of a number of the format. An undefined number is written with the leading
bit of its fraction. -/
def encode (f : Format) (x : Floating) : Nat :=
  let sign := if x.isNegative then 1 <<< (f.fractionBits + f.exponentBits) else 0
  match x with
  | .nan => (f.greatestField <<< f.fractionBits) + (1 <<< (f.fractionBits - 1))
  | .infinite _ => sign + (f.greatestField <<< f.fractionBits)
  | .zero _ => sign
  | .finite q =>
    let exponent := f.gridExponent q
    let significand := (magnitude q / pow2 exponent).floor.toNat
    if significand < 1 <<< f.fractionBits then sign + significand
    else
      let field := (exponent - f.leastExponent).toNat + 1
      sign + (field <<< f.fractionBits) + (significand - (1 <<< f.fractionBits))

end Format

end DialogScript
