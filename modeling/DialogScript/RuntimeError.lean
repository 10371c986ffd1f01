import DialogScript.Diagnostic
import DialogScript.InputType
import DialogScript.Program.Operator

/-!
# Runtime errors

Everything that can go wrong while a script runs, as a cause and the span it is about. The wording
of the causes is in one place, `RuntimeCause.message`.
-/

namespace DialogScript

/-- The causes of runtime errors. -/
inductive RuntimeCause where
  | undefinedVariable (name : String)
  | conditionType (found : ValueType)
  | unaryOperand (op : UnaryOperator) (found : ValueType)
  | booleanOperands (op : BinaryOperator) (left right : ValueType)
  | numberOperands (op : BinaryOperator) (left right : ValueType)
  | divisionByZero
  | loopLimit (limit : Nat) (line : Int)
  | inputGiven (name : String)
  | inputUnusable (name : String) (error : ConversionError)
  | inputType (name : String) (wanted : InputType) (found : ValueType)
  | inputMissing
  | inputsExhausted (name : String)
  deriving DecidableEq

/-- What a unary operator asks of its operand. -/
def UnaryOperator.wants : UnaryOperator → String
  | .not => "a boolean"
  | .negate => "a number"

/-- The wording of a cause. -/
def RuntimeCause.message : RuntimeCause → String
  | .undefinedVariable name => "Variable '" ++ name ++ "' is not defined"
  | .conditionType found => "Condition must be a boolean, got " ++ found.name
  | .unaryOperand op found =>
    "Operator '" ++ op.symbol ++ "' expects " ++ op.wants ++ ", got " ++ found.name
  | .booleanOperands op left right =>
    "Operator '" ++ op.symbol ++ "' expects booleans, got " ++ left.name ++ " and " ++ right.name
  | .numberOperands op left right =>
    "Operator '" ++ op.symbol ++ "' expects numbers, got " ++ left.name ++ " and " ++ right.name
  | .divisionByZero => "Division by zero"
  | .loopLimit limit line =>
    "More than " ++ toString limit ++ " iterations exceeded at line " ++ toString line
      ++ ", possible infinite loop"
  | .inputGiven name => "Input for '" ++ name ++ "' has already been provided"
  | .inputUnusable name error => "Invalid input for '" ++ name ++ "': " ++ error.message
  | .inputType name wanted found =>
    "Input for '" ++ name ++ "' must be a " ++ wanted.word ++ ", got " ++ found.name
  | .inputMissing => "Request has not been fulfilled yet."
  | .inputsExhausted name => "No input left for '" ++ name ++ "'"

/-- A cause and the span it is about. -/
structure RuntimeError where
  cause : RuntimeCause
  span : Span
  deriving DecidableEq

/-- The diagnostic of a runtime error in a source. -/
def RuntimeError.diagnostic (source : Source) (e : RuntimeError) : Diagnostic :=
  ⟨.running, e.cause.message, ⟨source, e.span⟩⟩

end DialogScript
