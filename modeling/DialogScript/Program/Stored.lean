import DialogScript.Program.Tree

/-!
# Stored programs

The JSON form of programs. Each node is an object with its type, its fields and its location; the
source is stored once, with the program. `Stmt.toJson` gives the stored form of a statement and
of everything that may stand in the place of one.
-/

namespace DialogScript

/-- The stored form of a span. -/
def Span.toJson (s : Span) : Json :=
  .object [("line", .integer s.line), ("initial", .integer s.initial), ("final", .integer s.final)]

/-- A node: its type, its fields and its location. -/
def nodeJson (type : String) (fields : List (String × Json)) (span : Span) : Json :=
  .object (("type", .text type) :: fields ++ [("location", span.toJson)])

mutual

/-- The stored form of an expression. -/
def Expr.toJson : Expr → Json
  | .integer value span => nodeJson "Integer" [("value", .integer value)] span
  | .float value span => nodeJson "Float" [("value", .real value)] span
  | .boolean value span => nodeJson "Boolean" [("value", .boolean value)] span
  | .text value span => nodeJson "InlineString" [("value", .text value)] span
  | .template parts span => nodeJson "String" [("parts", .array (Expr.partsToJson parts))] span
  | .variable name span => nodeJson "Variable" [("name", .text name)] span
  | .unary op operand span =>
    nodeJson "UnaryOp" [("op", .text op.symbol), ("operand", operand.toJson)] span
  | .binary op left right span =>
    nodeJson "BinaryOp" [("op", .text op.symbol), ("left", left.toJson), ("right", right.toJson)]
      span
  | .foreign _ form => form

/-- The stored forms of expressions. -/
def Expr.partsToJson : List Expr → List Json
  | [] => []
  | e :: rest => e.toJson :: Expr.partsToJson rest

end

/-- The stored form of a source. -/
def Source.toJson (s : Source) : Json :=
  .object [("kind", .text s.kind.word), ("value", .text s.value)]

mutual

/-- The stored form of a statement. -/
def Stmt.toJson : Stmt → Json
  | .assign name value span =>
    nodeJson "Assign" [("name", .text name), ("expression", value.toJson)] span
  | .output value span => nodeJson "Output" [("expression", value.toJson)] span
  | .input name type span =>
    nodeJson "Input" [("name", .text name), ("expected_type", type)] span
  | .block body span => nodeJson "Block" [("statements", .array (Stmt.allToJson body))] span
  | .loop condition body span =>
    nodeJson "While" [("condition", condition.toJson), ("body", body.toJson)] span
  | .choice first others otherwise span =>
    nodeJson "If" [("if_branch", first.toJson),
      ("else_if_branches", .array (Stmt.allToJson others)), ("else_block", otherwise.toJson)] span
  | .branch condition body span =>
    nodeJson "ConditionalBlock" [("condition", condition.toJson), ("block", body.toJson)] span
  | .expression e => e.toJson
  | .program body source =>
    .object [("type", .text "Program"), ("source", source.toJson),
      ("statements", .array (Stmt.allToJson body))]
  | .absent => .null

/-- The stored forms of statements. -/
def Stmt.allToJson : List Stmt → List Json
  | [] => []
  | s :: rest => s.toJson :: Stmt.allToJson rest

end

/-- The stored form of a program. -/
def Program.toJson (p : Program) : Json := (Stmt.program p.statements p.source).toJson

end DialogScript
