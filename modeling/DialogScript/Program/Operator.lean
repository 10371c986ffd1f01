/-!
# Operators

The binary and unary operators of expressions, with the symbols they are written with and the
names their nodes have in messages.
-/

namespace DialogScript

/-- The operators between two operands. -/
inductive BinaryOperator where
  | and
  | or
  | xor
  | equal
  | notEqual
  | greater
  | less
  | greaterOrEqual
  | lessOrEqual
  | add
  | sub
  | mul
  | div
  | mod
  deriving DecidableEq, Inhabited

namespace BinaryOperator

/-- All binary operators. -/
def all : List BinaryOperator :=
  [.and, .or, .xor, .equal, .notEqual, .greater, .less, .greaterOrEqual, .lessOrEqual, .add, .sub,
    .mul, .div, .mod]

/-- The symbol of a binary operator. -/
def symbol : BinaryOperator → String
  | .and => "and"
  | .or => "or"
  | .xor => "xor"
  | .equal => "=="
  | .notEqual => "!="
  | .greater => ">"
  | .less => "<"
  | .greaterOrEqual => ">="
  | .lessOrEqual => "<="
  | .add => "+"
  | .sub => "-"
  | .mul => "*"
  | .div => "/"
  | .mod => "%"

/-- The name of a binary operator's node. -/
def nodeName : BinaryOperator → String
  | .and => "AndOp"
  | .or => "OrOp"
  | .xor => "XorOp"
  | .equal => "EqualOp"
  | .notEqual => "NotEqualOp"
  | .greater => "GreaterOp"
  | .less => "LessOp"
  | .greaterOrEqual => "GreaterOrEqualOp"
  | .lessOrEqual => "LessOrEqualOp"
  | .add => "AddOp"
  | .sub => "SubOp"
  | .mul => "MulOp"
  | .div => "DivOp"
  | .mod => "ModOp"

/-- The binary operator with a given symbol. -/
def ofSymbol? (s : String) : Option BinaryOperator := all.find? fun op => op.symbol == s

theorem ofSymbol?_symbol (op : BinaryOperator) : ofSymbol? op.symbol = some op := by
  cases op <;> decide

end BinaryOperator

/-- The operators before one operand. -/
inductive UnaryOperator where
  | not
  | negate
  deriving DecidableEq, Inhabited

namespace UnaryOperator

/-- All unary operators. -/
def all : List UnaryOperator := [.not, .negate]

/-- The symbol of a unary operator. -/
def symbol : UnaryOperator → String
  | .not => "not"
  | .negate => "-"

/-- The name of a unary operator's node. -/
def nodeName : UnaryOperator → String
  | .not => "NotOp"
  | .negate => "NegateOp"

/-- The unary operator with a given symbol. -/
def ofSymbol? (s : String) : Option UnaryOperator := all.find? fun op => op.symbol == s

theorem ofSymbol?_symbol (op : UnaryOperator) : ofSymbol? op.symbol = some op := by
  cases op <;> decide

end UnaryOperator

end DialogScript
