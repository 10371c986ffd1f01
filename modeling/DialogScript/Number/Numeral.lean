import DialogScript.Number.Decimal
import DialogScript.Text.Blank
import DialogScript.Text.Digit
import DialogScript.Text.Quoted

/-!
# Numerals

Reading typed numbers. White characters may surround a numeral, the digits may be those of any
script, and an underscore may stand between two digits. `readInteger?` reads whole numbers with an
optional sign; `readReal?` also reads fractions, exponents and the words for infinities and
undefined numbers. `IntegerFault.message` and `realComplaint` are the texts about what cannot be
read.

The host bounds how many digits it reads as one whole number (`DigitLimit`), and can change or lift
the bound. All that reads whole numbers takes it as an argument, which stands for the lifted bound
if it is left out; the command runs under the standard one. Such a bound is for whole numbers alone:
a numeral that is too long for `readInteger` may still be read as a real one.
-/

namespace DialogScript

/-- How many digits are read as one whole number at most. The bound can be lifted, but it cannot be
lower than 640. -/
structure DigitLimit where
  most : Option Nat
  least : ∀ n ∈ most, 640 ≤ n
  deriving DecidableEq

namespace DigitLimit

/-- No bound. -/
def lifted : DigitLimit := ⟨none, by simp⟩

/-- The bound of a host that sets no other. -/
def standard : DigitLimit := ⟨some 4300, by simp⟩

/-- The bound that a number of digits is above, if there is one. -/
def exceeded? (limit : DigitLimit) (count : Nat) : Option Nat := limit.most.filter (· < count)

/-- A number of digits is not above the bound. -/
def Admits (limit : DigitLimit) (count : Nat) : Prop := ∀ most ∈ limit.most, count ≤ most

instance (limit : DigitLimit) (count : Nat) : Decidable (limit.Admits count) :=
  inferInstanceAs (Decidable (∀ most ∈ limit.most, count ≤ most))

theorem exceeded?_eq_none {limit : DigitLimit} {count : Nat} :
    limit.exceeded? count = none ↔ limit.Admits count := by
  simp [exceeded?, Admits, Option.filter_eq_none_iff]

theorem admits_lifted (count : Nat) : lifted.Admits count := by
  simp [Admits, lifted]

theorem admits_of_le {count : Nat} (h : count ≤ 640) (limit : DigitLimit) : limit.Admits count :=
  fun _ hmost => Nat.le_trans h (limit.least _ hmost)

end DigitLimit

namespace Numeral

open Text

/-- A digit of any script as one of `0` to `9`; other characters stay. -/
def plainDigit (c : Char) : Char :=
  match digitValue? c with
  | some value => Char.ofNat ('0'.toNat + value)
  | none => c

/-- Drops the underscores, each of which has to stand between two digits. -/
def dropSeparators : (previous : Option Char) → List Char → Option (List Char)
  | _, [] => some []
  | previous, '_' :: rest =>
    if previous.any isAsciiDigit && rest.head?.any isAsciiDigit then
      dropSeparators (some '_') rest
    else none
  | _, c :: rest => (dropSeparators (some c) rest).map (c :: ·)

/-- A numeral without surrounding white characters and separators, in plain digits. -/
def plain? (s : String) : Option (List Char) :=
  dropSeparators none ((trim isWhite s.toList).map plainDigit)

/-- Splits off a sign; the first component says whether it is a minus. -/
def splitSign : List Char → Bool × List Char
  | '-' :: rest => (true, rest)
  | '+' :: rest => (false, rest)
  | cs => (false, cs)

/-- The number that plain digits stand for. -/
def value (cs : List Char) : Nat := cs.foldl (fun n c => 10 * n + (c.toNat - '0'.toNat)) 0

/-- The number that a nonempty run of plain digits stands for. -/
def natural? (cs : List Char) : Option Nat :=
  if cs.isEmpty || !cs.all isAsciiDigit then none else some (value cs)

/-- Reads a whole number. -/
def readInteger? (s : String) : Option Int := do
  let cs ← plain? s
  let (negative, rest) := splitSign cs
  let n ← natural? rest
  return if negative then -(n : Int) else (n : Int)

/-- Why a text is not read as a whole number. -/
inductive IntegerFault where
  | malformed (numeral : String)
  | tooLong (most count : Nat)
  deriving DecidableEq

/-- How many digits a text begins with, behind its sign. Separators do not count; where one of
them does not stand between two digits there is no number of digits. -/
def leadingDigits (s : String) : Nat :=
  let (_, rest) := splitSign ((trim isWhite s.toList).map plainDigit)
  match dropSeparators none (rest.takeWhile fun c => isAsciiDigit c || c == '_') with
  | some digits => digits.length
  | none => 0

/-- Reads a whole number that is not too long. The digits are counted before anything is known of
what follows them. -/
def readInteger (s : String) (limit : DigitLimit := .lifted) : Except IntegerFault Int :=
  match limit.exceeded? (leadingDigits s) with
  | some most => .error (.tooLong most (leadingDigits s))
  | none =>
    match readInteger? s with
    | some n => .ok n
    | none => .error (.malformed s)

/-- Reads the exponent of a numeral: nothing, or a mark, an optional sign and digits. -/
def exponent? : List Char → Option Int
  | [] => some 0
  | c :: rest =>
    if c == 'e' || c == 'E' then do
      let (negative, digits) := splitSign rest
      let n ← natural? digits
      return if negative then -(n : Int) else (n : Int)
    else none

/-- Reads an unsigned number with an optional fraction and exponent. -/
def decimal? (cs : List Char) : Option Decimal := do
  let whole := cs.takeWhile isAsciiDigit
  let rest := cs.dropWhile isAsciiDigit
  let (fraction, rest) :=
    match rest with
    | '.' :: more => (more.takeWhile isAsciiDigit, more.dropWhile isAsciiDigit)
    | _ => ([], rest)
  if whole.isEmpty && fraction.isEmpty then none
  else
    let e ← exponent? rest
    return ⟨value (whole ++ fraction), e - (fraction.length : Int)⟩

/-- Reads a number as a double. The words for infinities and undefined numbers may be written in
either case. -/
def readReal? (s : String) : Option Floating := do
  let cs ← plain? s
  let (negative, rest) := splitSign cs
  let word := String.ofList (rest.map Char.toLower)
  if word == "inf" || word == "infinity" then return .infinite negative
  else if word == "nan" then return .nan
  else
    let d ← decimal? rest
    return d.toFloating .double negative

/-- The complaint about a text that is not read as a whole number. It shows the first 200
characters of a quoted text. -/
def IntegerFault.message : IntegerFault → String
  | .malformed s =>
    "invalid literal for int() with base 10: " ++ String.ofList ((quoted s).toList.take 200)
  | .tooLong most count =>
    "Exceeds the limit (" ++ toString most ++ " digits) for integer string conversion: value has "
      ++ toString count ++ " digits; use sys.set_int_max_str_digits() to increase the limit"

/-- The complaint about a text that is no number. It shows all of the quoted text. -/
def realComplaint (s : String) : String := "could not convert string to float: " ++ quoted s

end Numeral

end DialogScript
