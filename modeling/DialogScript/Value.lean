import DialogScript.Number.Arithmetic
import DialogScript.Number.Display

/-!
# Values

A script works with integers of 32 bits, floats of single precision, texts and booleans. Integers
and floats are both numbers, and an integer counts as the nearest float where a float is needed.
-/

namespace DialogScript

/-- The types of values. -/
inductive ValueType where
  | integer
  | float
  | text
  | boolean
  deriving DecidableEq, Inhabited

/-- The name of a type in messages. -/
def ValueType.name : ValueType → String
  | .integer => "integer"
  | .float => "float"
  | .text => "string"
  | .boolean => "boolean"

/-- A value of a script. -/
inductive Value where
  | integer (value : Int32)
  /-- A float, whose value is of single precision. -/
  | float (value : Floating)
  | text (value : String)
  | boolean (value : Bool)
  deriving DecidableEq, Inhabited

namespace Value

/-- The type of a value. -/
def type : Value → ValueType
  | .integer _ => .integer
  | .float _ => .float
  | .text _ => .text
  | .boolean _ => .boolean

/-- The float nearest to a floating-point number. -/
def ofFloating (x : Floating) : Value := .float x.toSingle

/-- A value as it is made: a float is brought to single precision. -/
def made : Value → Value
  | .float x => .ofFloating x
  | v => v

/-- Integers wrap around at 32 bits. -/
def ofInt (n : Int) : Value := .integer (Int32.ofInt n)

/-- The number of single precision that a number value counts as. -/
def toSingle? : Value → Option Floating
  | .integer n => some (Floating.ofInt n.toInt).toSingle
  | .float x => some x.toSingle
  | _ => none

/-- Whether a value is a number equal to zero. -/
def isZero : Value → Bool
  | .integer n => n == 0
  | .float x => x.isZero
  | _ => false

/-- The text that shows a value. -/
def display : Value → String
  | .integer n => toString n.toInt
  | .float x => x.display
  | .text s => s
  | .boolean b => if b then "true" else "false"

end Value

/-- A value that a host hands over. -/
inductive HostValue where
  | integer (value : Int)
  /-- A double. -/
  | real (value : Floating)
  | text (value : String)
  | boolean (value : Bool)
  /-- A value that is a script value already. -/
  | value (value : Value)
  /-- A value of a type that scripts know nothing of. -/
  | other (typeName : String)
  deriving DecidableEq, Inhabited

/-- Why a host's value is no value of a script. -/
inductive ConversionError where
  | integerRange (value : Int)
  | unknownType (typeName : String)
  deriving DecidableEq

/-- The text for a value that cannot be converted. -/
def ConversionError.message : ConversionError → String
  | .integerRange n => "integer " ++ toString n ++ " does not fit in 32 bits"
  | .unknownType typeName => "cannot convert " ++ typeName ++ " to a script value"

namespace Value

/-- The integer value of a number that fits in 32 bits. -/
def ofInteger (n : Int) : Except ConversionError Value :=
  if -2147483648 ≤ n ∧ n ≤ 2147483647 then .ok (.ofInt n) else .error (.integerRange n)

end Value

/-- The script value of a host's value. -/
def HostValue.toValue : HostValue → Except ConversionError Value
  | .integer n => Value.ofInteger n
  | .real x => .ok (.ofFloating x)
  | .text s => .ok (.text s)
  | .boolean b => .ok (.boolean b)
  | .value v => .ok v.made
  | .other typeName => .error (.unknownType typeName)

end DialogScript
