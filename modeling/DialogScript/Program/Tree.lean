import DialogScript.Json
import DialogScript.Program.Operator
import DialogScript.Span

/-!
# Program trees

Expressions, statements and programs. Every node knows the span it was read from.

A parsed program has each kind of node in its place. A stored program may have any node anywhere,
and is executed up to the point where a node turns out to be of the wrong kind. So there are
statements that cannot be executed (`expression`, `branch`, `program` and `absent`) and an
expression that cannot be evaluated, `foreign`, which keeps the kind and the stored form of the
node that stands in its place.
-/

namespace DialogScript

/-- An expression. -/
inductive Expr where
  /-- An integer, which has to fit the range of script integers where it is evaluated. -/
  | integer (value : Int) (span : Span)
  | float (value : Floating) (span : Span)
  | boolean (value : Bool) (span : Span)
  /-- A text without holes. -/
  | text (value : String) (span : Span)
  /-- A text made of parts, some of them holes. -/
  | template (parts : List Expr) (span : Span)
  | variable (name : String) (span : Span)
  | unary (op : UnaryOperator) (operand : Expr) (span : Span)
  | binary (op : BinaryOperator) (left right : Expr) (span : Span)
  /-- A node that is no expression, with the name of its kind and its stored form. -/
  | foreign (kind : String) (form : Json)
  deriving Inhabited

namespace Expr

/-- The span of an expression. -/
def span : Expr → Span
  | .integer _ s => s
  | .float _ s => s
  | .boolean _ s => s
  | .text _ s => s
  | .template _ s => s
  | .variable _ s => s
  | .unary _ _ s => s
  | .binary _ _ _ s => s
  | .foreign _ _ => default

/-- The name of an expression's kind. -/
def kind : Expr → String
  | .integer _ _ => "Integer"
  | .float _ _ => "Float"
  | .boolean _ _ => "Boolean"
  | .text _ _ => "InlineString"
  | .template _ _ => "String"
  | .variable _ _ => "Variable"
  | .unary op _ _ => op.nodeName
  | .binary op _ _ _ => op.nodeName
  | .foreign kind _ => kind

/-- Whether an expression is a text without holes. -/
def isText : Expr → Bool
  | .text _ _ => true
  | _ => false

mutual

/-- Whether two expressions are the same, spans included. -/
def same : Expr → Expr → Bool
  | .integer a s, .integer b t => a == b && s == t
  | .float a s, .float b t => a == b && s == t
  | .boolean a s, .boolean b t => a == b && s == t
  | .text a s, .text b t => a == b && s == t
  | .template a s, .template b t => sameParts a b && s == t
  | .variable a s, .variable b t => a == b && s == t
  | .unary p a s, .unary q b t => p == q && same a b && s == t
  | .binary p a c s, .binary q b d t => p == q && same a b && same c d && s == t
  | .foreign a f, .foreign b g => a == b && f == g
  | _, _ => false

/-- Whether two lists of expressions are the same. -/
def sameParts : List Expr → List Expr → Bool
  | [], [] => true
  | a :: as, b :: bs => same a b && sameParts as bs
  | _, _ => false

end

instance : BEq Expr := ⟨same⟩

end Expr

/-- A statement. -/
inductive Stmt where
  | assign (name : String) (value : Expr) (span : Span)
  | output (value : Expr) (span : Span)
  /-- Asks the host for a value. The type of the value is kept in its stored form, and looked at
  when the statement is executed. -/
  | input (name : String) (type : Json) (span : Span)
  | block (body : List Stmt) (span : Span)
  | loop (condition : Expr) (body : Stmt) (span : Span)
  /-- Branches in order, and what is done if none is taken. -/
  | choice (first : Stmt) (others : List Stmt) (otherwise : Stmt) (span : Span)
  /-- A branch of a choice. -/
  | branch (condition : Expr) (body : Stmt) (span : Span)
  /-- An expression that stands for a statement. -/
  | expression (e : Expr)
  /-- A program that stands for a statement. -/
  | program (body : List Stmt) (source : Source)
  /-- Nothing. -/
  | absent
  deriving Inhabited

namespace Stmt

/-- The name of a statement's kind. -/
def kind : Stmt → String
  | .assign _ _ _ => "Assign"
  | .output _ _ => "Output"
  | .input _ _ _ => "Input"
  | .block _ _ => "Block"
  | .loop _ _ _ => "While"
  | .choice _ _ _ _ => "If"
  | .branch _ _ _ => "ConditionalBlock"
  | .expression e => e.kind
  | .program _ _ => "Program"
  | .absent => "NoneType"

mutual

/-- Whether two statements are the same, spans included. -/
def same : Stmt → Stmt → Bool
  | .assign a x s, .assign b y t => a == b && x == y && s == t
  | .output x s, .output y t => x == y && s == t
  | .input a u s, .input b v t => a == b && u == v && s == t
  | .block a s, .block b t => sameAll a b && s == t
  | .loop x a s, .loop y b t => x == y && same a b && s == t
  | .choice a c e s, .choice b d f t => same a b && sameAll c d && same e f && s == t
  | .branch x a s, .branch y b t => x == y && same a b && s == t
  | .expression x, .expression y => x == y
  | .program a s, .program b t => sameAll a b && s == t
  | .absent, .absent => true
  | _, _ => false

/-- Whether two lists of statements are the same. -/
def sameAll : List Stmt → List Stmt → Bool
  | [], [] => true
  | a :: as, b :: bs => same a b && sameAll as bs
  | _, _ => false

end

instance : BEq Stmt := ⟨same⟩

end Stmt

/-- A program: its statements and the source they come from. -/
structure Program where
  statements : List Stmt
  source : Source
  deriving Inhabited, BEq

end DialogScript
