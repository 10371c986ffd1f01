import DialogScript.Environment
import DialogScript.Json.Shown
import DialogScript.Program.Tree
import DialogScript.RuntimeError

/-!
# Evaluation

The value of an expression. Operands are evaluated from left to right, and both of them whatever
the operator. Integer results wrap around at 32 bits; float results are computed in double
precision and brought to single precision. Numbers are compared by the difference of their single
precision values, with the smallest positive single as tolerance; only two integers are equal
exactly when they are the same.
-/

namespace DialogScript

/-- Faults of a program that no parsed program has: a stored one may hold integers beyond 32 bits,
input types that do not exist and nodes in the wrong place. -/
inductive ProgramFault where
  | integerRange (value : Int)
  | unsupportedExpression (kind : String)
  | unsupportedStatement (kind : String)
  | unknownInputType (shown : String)
  | compoundInputType (kind : String)
  | noBranch (kind : String) (part : String)
  deriving DecidableEq

/-- The text for a fault. -/
def ProgramFault.message : ProgramFault → String
  | .integerRange value => (ConversionError.integerRange value).message
  | .unsupportedExpression kind => "unsupported expression " ++ kind
  | .unsupportedStatement kind => "unsupported statement " ++ kind
  | .unknownInputType shown => "unknown input type " ++ shown
  | .compoundInputType kind => "unhashable type: '" ++ kind ++ "'"
  | .noBranch kind part => "'" ++ kind ++ "' object has no attribute '" ++ part ++ "'"

/-- The fault of asking for a value of a type that does not exist. -/
def ProgramFault.ofInputType (form : Json) : ProgramFault :=
  if form.isCompound then .compoundInputType form.kindName else .unknownInputType form.shown

/-- Why an expression has no value. -/
inductive EvalError where
  | runtime (error : RuntimeError)
  | fault (fault : ProgramFault)
  deriving DecidableEq

/-- The runtime error with a cause at a span. -/
def EvalError.ofCause (cause : RuntimeCause) (span : Span) : EvalError := .runtime ⟨cause, span⟩

namespace Value

open Floating

/-- The tolerance of comparisons, which is the smallest positive single. -/
def tolerance : Floating := .finite (pow2 (-149))

/-- The difference that comparisons look at. -/
def difference (x y : Floating) : Floating := (Floating.sub .double x y).toSingle

/-- Whether a comparison holds for a difference. -/
def compareBy (op : BinaryOperator) (d : Floating) : Bool :=
  match op with
  | .greater => tolerance.lt d
  | .less => d.lt tolerance.neg
  | .greaterOrEqual => tolerance.neg.lt d
  | _ => d.lt tolerance

/-- Whether two values are equal: two integers if they are the same, other numbers if their
difference is below the tolerance, texts and booleans if they are the same. -/
def equal (a b : Value) : Bool :=
  match a, b with
  | .integer m, .integer n => m == n
  | .text s, .text t => s == t
  | .boolean p, .boolean q => p == q
  | a, b =>
    match a.toSingle?, b.toSingle? with
    | some x, some y => (difference x y).abs.lt tolerance
    | _, _ => false

/-- Whether an operator compares the order of numbers. -/
def isOrder : BinaryOperator → Bool
  | .greater => true
  | .less => true
  | .greaterOrEqual => true
  | .lessOrEqual => true
  | _ => false

/-- The result of an operator on integers, before it is wrapped around. A remainder has the sign
of the dividend. -/
def integerResult (op : BinaryOperator) (m n : Int) : Int :=
  match op with
  | .add => m + n
  | .sub => m - n
  | .mul => m * n
  | _ => m.tmod n

/-- The result of an operator on floats, before it is brought to single precision. -/
def floatResult (op : BinaryOperator) (x y : Floating) : Floating :=
  match op with
  | .add => Floating.add .double x y
  | .sub => Floating.sub .double x y
  | .mul => Floating.mul .double x y
  | .div => Floating.div .double x y
  | _ => Floating.mod x y

/-- The value of a logical operator. -/
def logicalResult (op : BinaryOperator) (p q : Bool) : Bool :=
  match op with
  | .and => p && q
  | .or => p || q
  | _ => p != q

/-- The value of an operator on two numbers, which count as the singles `x` and `y`. Division
always gives a float. -/
def numberResult (op : BinaryOperator) (a b : Value) (x y : Floating) : Value :=
  match a, b with
  | .integer m, .integer n =>
    if op = .div then .ofFloating (floatResult op x y)
    else .ofInt (integerResult op m.toInt n.toInt)
  | _, _ => .ofFloating (floatResult op x y)

/-- The value of an operator that works on numbers. -/
def arithmetic (op : BinaryOperator) (a b : Value) (left right : Span) :
    Except RuntimeError Value :=
  match a.toSingle?, b.toSingle? with
  | some x, some y =>
    if isOrder op then .ok (.boolean (compareBy op (difference x y)))
    else if (op = .div ∨ op = .mod) ∧ b.isZero then .error ⟨.divisionByZero, right⟩
    else .ok (numberResult op a b x y)
  | none, _ => .error ⟨.numberOperands op a.type b.type, left⟩
  | some _, none => .error ⟨.numberOperands op a.type b.type, right⟩

/-- The value of a logical operator, which works on booleans. -/
def logical (op : BinaryOperator) (a b : Value) (left right : Span) :
    Except RuntimeError Value :=
  match a, b with
  | .boolean p, .boolean q => .ok (.boolean (logicalResult op p q))
  | .boolean _, _ => .error ⟨.booleanOperands op a.type b.type, right⟩
  | _, _ => .error ⟨.booleanOperands op a.type b.type, left⟩

/-- The value of a binary operator on two values that come from the given spans. A sum with a
text is the texts of both put together. -/
def binary (op : BinaryOperator) (a b : Value) (left right : Span) :
    Except RuntimeError Value :=
  match op with
  | .equal => .ok (.boolean (equal a b))
  | .notEqual => .ok (.boolean (!equal a b))
  | .and => logical op a b left right
  | .or => logical op a b left right
  | .xor => logical op a b left right
  | .add =>
    if a.type = .text ∨ b.type = .text then .ok (.text (a.display ++ b.display))
    else arithmetic op a b left right
  | _ => arithmetic op a b left right

/-- The value of a unary operator on a value that comes from the given span. -/
def unary (op : UnaryOperator) (a : Value) (span : Span) : Except RuntimeError Value :=
  match op, a with
  | .not, .boolean b => .ok (.boolean (!b))
  | .negate, .integer n => .ok (.ofInt (-n.toInt))
  | .negate, .float x => .ok (.ofFloating x.neg)
  | op, a => .error ⟨.unaryOperand op a.type, span⟩

end Value

namespace Expr

mutual

/-- The value of an expression. -/
def eval (env : Environment) : Expr → Except EvalError Value
  | .integer n _ =>
    match Value.ofInteger n with
    | .ok v => .ok v
    | .error _ => .error (.fault (.integerRange n))
  | .float x _ => .ok (.ofFloating x)
  | .boolean b _ => .ok (.boolean b)
  | .text s _ => .ok (.text s)
  | .template parts _ =>
    match evalParts env parts with
    | .ok s => .ok (.text s)
    | .error e => .error e
  | .variable name span =>
    match env.get? name with
    | some v => .ok v
    | none => .error (.ofCause (.undefinedVariable name) span)
  | .unary op operand _ =>
    match eval env operand with
    | .ok v => (Value.unary op v operand.span).mapError .runtime
    | .error e => .error e
  | .binary op left right _ =>
    match eval env left with
    | .error e => .error e
    | .ok a =>
      match eval env right with
      | .error e => .error e
      | .ok b => (Value.binary op a b left.span right.span).mapError .runtime
  | .foreign kind _ => .error (.fault (.unsupportedExpression kind))

/-- The display texts of some parts put together. -/
def evalParts (env : Environment) : List Expr → Except EvalError String
  | [] => .ok ""
  | e :: rest =>
    match eval env e with
    | .error e => .error e
    | .ok v =>
      match evalParts env rest with
      | .error e => .error e
      | .ok s => .ok (v.display ++ s)

end

/-- The truth of a condition. -/
def evalCondition (env : Environment) (e : Expr) : Except EvalError Bool :=
  match e.eval env with
  | .error error => .error error
  | .ok (.boolean b) => .ok b
  | .ok v => .error (.ofCause (.conditionType v.type) e.span)

end Expr

end DialogScript
