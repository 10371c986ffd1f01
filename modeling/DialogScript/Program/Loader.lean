import DialogScript.InputType
import DialogScript.Json.Shown
import DialogScript.Number.Arithmetic
import DialogScript.Number.Numeral
import DialogScript.Program.Stored

/-!
# Loading stored programs

`Stmt.load` builds the tree of a stored node. The fields of a node are looked at in a fixed order,
its location first, and the first one that is missing or of no use is reported. Which node may
stand where is not checked here: a node in the wrong place is noticed when the program reaches
it.

The reading is typed: what a node of a tree holds as a line, a column, a name or a text has to be
one. A document with something else in its place is refused (`LoadError.notPlace`,
`LoadError.notText`), where an untyped loader would keep the value and go wrong, if at all, when it
is used. No program is stored as such a document.
-/

namespace DialogScript

/-- Why a stored node cannot be loaded. -/
inductive LoadError where
  | missingField (key : String)
  | unknownOperator (symbol : Json)
  | compoundOperator (symbol : Json)
  | unknownType (type : Json)
  | emptySpan (error : EmptySpan)
  | badInteger (fault : Numeral.IntegerFault)
  | badReal (numeral : String)
  | noInteger (value : Json)
  | noReal (value : Json)
  | undefinedInteger
  | infiniteInteger
  | realOverflow
  | notIterable (value : Json)
  | notIndexable (value : Json)
  | notNode (value : Json)
  | incomparable (left right : Json)
  | notPlace (value : Json)
  | notText (value : Json)

/-- The text for a node that cannot be loaded. -/
def LoadError.message : LoadError → String
  | .missingField key => key
  | .unknownOperator symbol => symbol.label
  | .compoundOperator symbol => "unhashable type: '" ++ symbol.kindName ++ "'"
  | .unknownType type => "Unknown AST node type in JSON: " ++ type.label
  | .emptySpan error => error.message
  | .badInteger fault => fault.message
  | .badReal numeral => Numeral.realComplaint numeral
  | .noInteger value =>
    "int() argument must be a string, a bytes-like object or a real number, not '"
      ++ value.kindName ++ "'"
  | .noReal value =>
    "float() argument must be a string or a real number, not '" ++ value.kindName ++ "'"
  | .undefinedInteger => "cannot convert float NaN to integer"
  | .infiniteInteger => "cannot convert float infinity to integer"
  | .realOverflow => "int too large to convert to float"
  | .notIterable value => "'" ++ value.kindName ++ "' object is not iterable"
  | .notIndexable (.array _) => "list indices must be integers or slices, not str"
  | .notIndexable (.text _) => "string indices must be integers, not 'str'"
  | .notIndexable value => "'" ++ value.kindName ++ "' object is not subscriptable"
  | .notNode value => "'" ++ value.kindName ++ "' object has no attribute 'get'"
  | .incomparable left right =>
    "'<=' not supported between instances of '" ++ left.kindName ++ "' and '" ++ right.kindName
      ++ "'"
  | .notPlace value => "'" ++ value.kindName ++ "' object is no column or line"
  | .notText value => "'" ++ value.kindName ++ "' object is no text"

/-- A document inside another one. -/
abbrev Json.Part (j : Json) := { value : Json // sizeOf value < sizeOf j }

namespace Json

/-- Whether a document is an object. -/
def isObject : Json → Bool
  | .object _ => true
  | _ => false

/-- The field of an object with a given key, which has to be there. -/
def field (j : Json) (key : String) : Except LoadError j.Part :=
  match h : j.field? key with
  | some value => .ok ⟨value, sizeOf_field? h⟩
  | none => .error (if j.isObject then .missingField key else .notIndexable j)

/-- The items of an array. A text or an object has items only as far as it is empty. -/
def parts (j : Json) : Except LoadError (List j.Part) :=
  match j with
  | .array items => .ok (items.attach.map fun ⟨item, h⟩ =>
      ⟨item, by have := List.sizeOf_lt_of_mem h; simp only [Json.array.sizeOf_spec]; omega⟩)
  | .text s => if s = "" then .ok [] else .error (.notNode (.text s))
  | .object fields => if fields.isEmpty then .ok [] else .error (.notNode (.text ""))
  | other => .error (.notIterable other)

/-- A document that has to be a text. -/
def asText : Json → Except LoadError String
  | .text s => .ok s
  | other => .error (.notText other)

/-- Whether a document is a number or a truth value. -/
def isNumber : Json → Bool
  | .boolean _ | .integer _ | .real _ => true
  | _ => false

/-- A document that stands for a whole number: a number loses its fraction, and a text is read as
a numeral. -/
def asInteger (digits : DigitLimit) : Json → Except LoadError Int
  | .boolean b => .ok (if b then 1 else 0)
  | .integer n => .ok n
  | .real .nan => .error .undefinedInteger
  | .real (.infinite _) => .error .infiniteInteger
  | .real (.zero _) => .ok 0
  | .real (.finite q) => .ok (Floating.truncate q)
  | .text s =>
    match Numeral.readInteger s digits with
    | .ok n => .ok n
    | .error fault => .error (.badInteger fault)
  | other => .error (.noInteger other)

/-- A document that stands for a double: a text is read as a numeral. -/
def asReal : Json → Except LoadError Floating
  | .boolean b => .ok (.ofInt (if b then 1 else 0))
  | .integer n =>
    match Floating.ofInt n with
    | .infinite _ => .error .realOverflow
    | x => .ok x
  | .real x => .ok x
  | .text s =>
    match Numeral.readReal? s with
    | some x => .ok x
    | none => .error (.badReal s)
  | other => .error (.noReal other)

/-- Whether the order of two documents is known: that of two numbers, two texts or two arrays
is. A truth value counts as a number. -/
def isComparable : Json → Json → Bool
  | .text _, .text _ => true
  | .array _, .array _ => true
  | a, b => a.isNumber && b.isNumber

/-- A document that has to be a column or a line. A truth value counts as 0 or 1. -/
def asPlace : Json → Except LoadError Int
  | .boolean b => .ok (if b then 1 else 0)
  | .integer n => .ok n
  | other => .error (.notPlace other)

end Json

/-- Loads a span. Its columns are compared before anything else is asked of them. -/
def Span.load (j : Json) : Except LoadError Span := do
  let line ← j.field "line"
  let initial ← j.field "initial"
  let final ← j.field "final"
  if !final.1.isComparable initial.1 then .error (.incomparable final.1 initial.1)
  else
    match Span.make (← line.1.asPlace) (← initial.1.asPlace) (← final.1.asPlace) with
    | .ok span => return span
    | .error e => .error (.emptySpan e)

/-- Loads a source. A program without one comes from nowhere in particular. -/
def Source.load (j : Option Json) : Except LoadError Source :=
  match j with
  | some (.object fields) => do
    let kind ← ((Json.findField "kind" fields).getD (.text "none")).asText
    let value ← ((Json.findField "value" fields).getD (.text "")).asText
    return ⟨SourceKind.ofWord kind, value⟩
  | some other => if other.isTruthy then .error (.notNode other) else .ok Source.empty
  | none => .ok Source.empty

/-- A node that stands in the place of an expression. -/
def Stmt.asExpr : Stmt → Expr
  | .expression e => e
  | other => .foreign other.kind other.toJson

/-- Why a document is no operator. -/
def Json.noOperator : Json → LoadError
  | .array items => .compoundOperator (.array items)
  | .object fields => .compoundOperator (.object fields)
  | other => .unknownOperator other

/-- Loads an operator, given how symbols are looked up. -/
def Json.asOperator {α : Type} (ofSymbol? : String → Option α) (j : Json) : Except LoadError α :=
  match j with
  | .text s =>
    match ofSymbol? s with
    | some op => .ok op
    | none => .error j.noOperator
  | _ => .error j.noOperator

/-- How to load the documents inside a document. -/
abbrev Json.PartLoader (j : Json) := j.Part → Except LoadError Stmt

namespace Json.PartLoader

variable {j : Json}

/-- Loads the node in a field. -/
def child (load : j.PartLoader) (key : String) : Except LoadError Stmt := do
  load (← j.field key)

/-- Loads the nodes in a field that holds an array. -/
def children (load : j.PartLoader) (key : String) : Except LoadError (List Stmt) := do
  let ⟨list, h⟩ ← j.field key
  (← list.parts).mapM fun ⟨item, h'⟩ => load ⟨item, Nat.lt_trans h' h⟩

/-- Loads the node in a field that may be missing. -/
def optionalChild (load : j.PartLoader) (key : String) : Except LoadError Stmt :=
  match h : j.field? key with
  | some value => load ⟨value, Json.sizeOf_field? h⟩
  | none => .ok .absent

/-- Loads an expression node, given how to load the nodes inside it. -/
def expression (digits : DigitLimit) (load : j.PartLoader) (type : Json) (span : Span) :
    Except LoadError Expr := do
  match type with
  | .text "Integer" => return .integer (← (← j.field "value").1.asInteger digits) span
  | .text "Float" => return .float (← (← j.field "value").1.asReal) span
  | .text "Boolean" => return .boolean (← j.field "value").1.isTruthy span
  | .text "InlineString" => return .text (← (← j.field "value").1.asText) span
  | .text "String" => return .template ((← load.children "parts").map Stmt.asExpr) span
  | .text "Variable" => return .variable (← (← j.field "name").1.asText) span
  | .text "BinaryOp" =>
    let op ← (← j.field "op").1.asOperator BinaryOperator.ofSymbol?
    let left ← load.child "left"
    let right ← load.child "right"
    return .binary op left.asExpr right.asExpr span
  | .text "UnaryOp" =>
    let op ← (← j.field "op").1.asOperator UnaryOperator.ofSymbol?
    return .unary op (← load.child "operand").asExpr span
  | type => .error (.unknownType type)

/-- Loads a node other than a program, given how to load the nodes inside it. -/
def statement (digits : DigitLimit) (load : j.PartLoader) (type : Json) (span : Span) :
    Except LoadError Stmt := do
  match type with
  | .text "Assign" =>
    let name ← (← j.field "name").1.asText
    return .assign name (← load.child "expression").asExpr span
  | .text "Output" => return .output (← load.child "expression").asExpr span
  | .text "Input" =>
    let name ← (← j.field "name").1.asText
    return .input name ((j.field? "expected_type").getD InputType.any.toJson) span
  | .text "Block" => return .block (← load.children "statements") span
  | .text "While" =>
    let condition ← load.child "condition"
    return .loop condition.asExpr (← load.child "body") span
  | .text "ConditionalBlock" =>
    let condition ← load.child "condition"
    return .branch condition.asExpr (← load.child "block") span
  | .text "If" =>
    let first ← load.child "if_branch"
    let others ← load.children "else_if_branches"
    return .choice first others (← load.optionalChild "else_block") span
  | type => return .expression (← load.expression digits type span)

/-- Loads a node, given how to load the nodes inside it. -/
def node (digits : DigitLimit) (load : j.PartLoader) : Except LoadError Stmt := do
  match j with
  | .null => return .absent
  | .object _ =>
    let type := (j.field? "type").getD .null
    if type == .text "Program" then
      let source ← Source.load (j.field? "source")
      return .program (← load.children "statements") source
    else
      let location ← j.field "location"
      load.statement digits type (← Span.load location.1)
  | other => .error (.notNode other)

end Json.PartLoader

/-- Loads a node. -/
def Stmt.load (digits : DigitLimit) (j : Json) : Except LoadError Stmt :=
  Json.PartLoader.node digits fun (part : j.Part) => Stmt.load digits part.1
termination_by j
decreasing_by exact part.2

/-- Loads a program. A block can take the place of a program; it comes from nowhere in
particular. -/
def Program.load (j : Json) (digits : DigitLimit := .lifted) :
    Except LoadError (Stmt × Program) := do
  let root ← Stmt.load digits j
  match root with
  | .program body source => return (root, ⟨body, source⟩)
  | .block body _ => return (root, ⟨body, Source.empty⟩)
  | _ => .error (.notNode j)

/-- Whether a program is the same after storing and loading it. -/
def Program.survivesStoring (p : Program) (digits : DigitLimit := .lifted) : Bool :=
  match Program.load p.toJson digits with
  | .ok (_, loaded) => loaded == p
  | .error _ => false

end DialogScript
