import DialogScript.Number.Decimal

/-!
# Layouts of numbers

How the digits of a number are written out: positionally while the exponent of the leading digit
is in a certain range, and otherwise with an exponent. A `Layout` holds the decisions of one
written form; `Layout.write` writes digits by it.
-/

namespace DialogScript

/-- The decisions of a written form of numbers. -/
structure Layout where
  /-- The least exponent of the leading digit that is written positionally. -/
  positionalFrom : Int
  /-- The first exponent of the leading digit that is no longer written positionally. -/
  positionalBelow : Int
  /-- What follows the digits of a whole number that is written positionally. -/
  wholeMark : String
  /-- What stands before the exponent. -/
  exponentMark : String
  deriving DecidableEq

namespace Layout

/-- A whole number with at least two digits. -/
def twoDigits (n : Nat) : String :=
  String.ofList (if n < 10 then '0' :: Decimal.digits n else Decimal.digits n)

/-- Digits with the decimal point where the exponent of the leading digit puts it. -/
def positional (layout : Layout) (digits : List Char) (lead : Int) : String :=
  if lead < 0 then
    "0." ++ String.ofList (List.replicate (-lead - 1).toNat '0' ++ digits)
  else
    let whole := lead.toNat + 1
    if digits.length ≤ whole then
      String.ofList (digits ++ List.replicate (whole - digits.length) '0') ++ layout.wholeMark
    else
      String.ofList (digits.take whole) ++ "." ++ String.ofList (digits.drop whole)

/-- Digits with a point after the first and the exponent of the leading digit. -/
def scientific (layout : Layout) (digits : List Char) (lead : Int) : String :=
  let mantissa :=
    match digits with
    | first :: next :: more => String.ofList (first :: '.' :: next :: more)
    | _ => String.ofList digits
  mantissa ++ layout.exponentMark ++ (if lead < 0 then "-" else "+") ++ twoDigits lead.natAbs

/-- Writes a decimal. -/
def write (layout : Layout) (d : Decimal) : String :=
  let lead := d.leadExponent
  if layout.positionalFrom ≤ lead && lead < layout.positionalBelow then
    layout.positional d.significantDigits lead
  else layout.scientific d.significantDigits lead

end Layout

end DialogScript
