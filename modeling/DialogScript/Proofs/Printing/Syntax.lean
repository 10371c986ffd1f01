import DialogScript.Proofs.Grammar

/-!
# Writing programs

Program trees without spans, and the text that each of them is written as. Statements are written
one to a line, each block indented by the same step. An operand is put in parentheses exactly if
it is looser than its place allows (`wrap`), and a text is written with escapes for what would end
it or open a hole.

Not every tree is written as a text that stands for it: names have to be names, numbers have to
be in range, texts must hold none of the characters that no escape writes, and a template has to
be in the form in which the parser leaves it (`Term.wellFormed`).
-/

namespace DialogScript

open Text

/-! ### Trees without spans -/

/-- An expression without spans. The texts among the parts of a template are its literal parts,
all other parts are its holes. -/
inductive Term where
  | integer (n : Nat)
  /-- A number with a point, by the digits before and after it. -/
  | float (whole fraction : List Char)
  | boolean (b : Bool)
  | text (s : String)
  | template (parts : List Term)
  | variable (name : String)
  | unary (op : UnaryOperator) (operand : Term)
  | binary (op : BinaryOperator) (left right : Term)

mutual

/-- A statement without spans. -/
inductive Sentence where
  | assign (name : String) (value : Term)
  | output (value : Term)
  | input (name : String) (type : InputType)
  | loop (condition : Term) (body : Body)
  | choice (condition : Term) (body : Body) (rest : ElsePart)

/-- The body of a loop or a branch, which is not empty. -/
inductive Body where
  | one (s : Sentence)
  | more (s : Sentence) (rest : Body)

/-- What follows the first branch of a choice. -/
inductive ElsePart where
  | nothing
  | otherwise (body : Body)
  | branch (condition : Term) (body : Body) (rest : ElsePart)

end

mutual

/-- An expression with all spans forgotten. -/
def Expr.bare : Expr → Expr
  | .integer n _ => .integer n default
  | .float x _ => .float x default
  | .boolean b _ => .boolean b default
  | .text s _ => .text s default
  | .template parts _ => .template (bareAll parts) default
  | .variable name _ => .variable name default
  | .unary op operand _ => .unary op operand.bare default
  | .binary op left right _ => .binary op left.bare right.bare default
  | .foreign kind form => .foreign kind form

/-- Expressions with all spans forgotten. -/
def Expr.bareAll : List Expr → List Expr
  | [] => []
  | e :: rest => e.bare :: bareAll rest

end

mutual

/-- A statement with all spans forgotten. -/
def Stmt.bare : Stmt → Stmt
  | .assign name value _ => .assign name value.bare default
  | .output value _ => .output value.bare default
  | .input name type _ => .input name type default
  | .block body _ => .block (bareAll body) default
  | .loop condition body _ => .loop condition.bare body.bare default
  | .choice first others otherwise _ =>
    .choice first.bare (bareAll others) otherwise.bare default
  | .branch condition body _ => .branch condition.bare body.bare default
  | .expression e => .expression e.bare
  | .program body source => .program (bareAll body) source
  | .absent => .absent

/-- Statements with all spans forgotten. -/
def Stmt.bareAll : List Stmt → List Stmt
  | [] => []
  | s :: rest => s.bare :: bareAll rest

end

mutual

/-- The tree of an expression, with no span in it. -/
def Term.tree : Term → Expr
  | .integer n => .integer n default
  | .float whole fraction => .float (Numeral.single whole fraction) default
  | .boolean b => .boolean b default
  | .text s => .text s default
  | .template parts => .template (trees parts) default
  | .variable name => .variable name default
  | .unary op operand => .unary op operand.tree default
  | .binary op left right => .binary op left.tree right.tree default

/-- The trees of expressions. -/
def Term.trees : List Term → List Expr
  | [] => []
  | t :: rest => t.tree :: trees rest

end

mutual

/-- The tree of a statement, with no span in it. -/
def Sentence.tree : Sentence → Stmt
  | .assign name value => .assign name value.tree default
  | .output value => .output value.tree default
  | .input name type => .input name type.toJson default
  | .loop condition body => .loop condition.tree (.block body.trees default) default
  | .choice condition body rest =>
    .choice (.branch condition.tree (.block body.trees default) default) rest.others
      rest.otherwiseTree default

/-- The trees of the statements of a body. -/
def Body.trees : Body → List Stmt
  | .one s => [s.tree]
  | .more s rest => s.tree :: rest.trees

/-- The trees of the further branches of a choice. -/
def ElsePart.others : ElsePart → List Stmt
  | .nothing => []
  | .otherwise _ => []
  | .branch condition body rest =>
    .branch condition.tree (.block body.trees default) default :: rest.others

/-- The tree of what is done if no branch of a choice is taken. -/
def ElsePart.otherwiseTree : ElsePart → Stmt
  | .nothing => .absent
  | .otherwise body => .block body.trees default
  | .branch _ _ rest => rest.otherwiseTree

end

/-! ### Trees that can be written -/

/-- Whether a text is a name: a letter or an underscore and then letters, numbers and underscores,
and no reserved word. -/
def isNameText (s : String) : Bool :=
  match s.toList with
  | [] => false
  | c :: rest =>
    Cursor.startsName c && rest.all Cursor.continuesName && (Keyword.ofSpelling? s).isNone

/-- Whether characters are a nonempty run of digits. -/
def isDigitRun (cs : List Char) : Bool := !cs.isEmpty && cs.all isAsciiDigit

/-- The characters that no escape writes. -/
def unwritable : List Char := ['"', '#', '\u0085', '\u2028', '\u2029']

/-- Whether a text can be written in a string. -/
def isWritable (s : String) : Bool := s.toList.all fun c => !unwritable.contains c

namespace Term

/-- Whether an expression is a text without holes. -/
def isText : Term → Bool
  | .text _ => true
  | _ => false

/-- Whether the literal parts of a template are nonempty and never next to each other; `afterText`
says whether one comes right before. -/
def properParts (afterText : Bool) : List Term → Bool
  | [] => true
  | .text s :: rest => !afterText && s != "" && properParts true rest
  | _ :: rest => properParts false rest

mutual

/-- Whether an expression can be written. -/
def wellFormed : Term → Bool
  | .integer n => n ≤ 2147483647
  | .float whole fraction => isDigitRun whole && isDigitRun fraction
  | .boolean _ => true
  | .text s => isWritable s
  | .template parts => parts.any (!·.isText) && properParts false parts && allWellFormed parts
  | .variable name => isNameText name
  | .unary _ operand => operand.wellFormed
  | .binary _ left right => left.wellFormed && right.wellFormed

/-- Whether expressions can be written. -/
def allWellFormed : List Term → Bool
  | [] => true
  | t :: rest => t.wellFormed && allWellFormed rest

end

end Term

mutual

/-- Whether a statement can be written. -/
def Sentence.wellFormed : Sentence → Bool
  | .assign name value => isNameText name && value.wellFormed
  | .output value => value.wellFormed
  | .input name _ => isNameText name
  | .loop condition body => condition.wellFormed && body.wellFormed
  | .choice condition body rest => condition.wellFormed && body.wellFormed && rest.wellFormed

/-- Whether the statements of a body can be written. -/
def Body.wellFormed : Body → Bool
  | .one s => s.wellFormed
  | .more s rest => s.wellFormed && rest.wellFormed

/-- Whether the rest of a choice can be written. -/
def ElsePart.wellFormed : ElsePart → Bool
  | .nothing => true
  | .otherwise body => body.wellFormed
  | .branch condition body rest => condition.wellFormed && body.wellFormed && rest.wellFormed

end

/-! ### The text of an expression -/

/-- A character of a text as it is written in a string. -/
def escapeChar (c : Char) : List Char :=
  if c = '\\' then ['\\', '\\']
  else if c = '{' then ['\\', '{']
  else if c = '\n' then ['\\', 'n']
  else if c = '\r' then ['\\', 'r']
  else [c]

/-- A text as it is written in a string. -/
def escape (cs : List Char) : List Char := cs.flatMap escapeChar

/-- An expression of a level as it is written where a level is asked for: in parentheses if it is
looser. -/
def wrap (place own : Level) (cs : List Char) : List Char :=
  if own.height ≤ place.height then cs else '(' :: cs ++ [')']

namespace Term

/-- The level of an expression. -/
def level : Term → Level
  | .unary .not _ => .complement
  | .unary .negate _ => .negation
  | .binary op _ _ => op.level
  | _ => .primary

mutual

/-- The text of an expression. -/
def render : Term → List Char
  | .integer n => Nat.toDigits 10 n
  | .float whole fraction => whole ++ '.' :: fraction
  | .boolean true => "true".toList
  | .boolean false => "false".toList
  | .text s => '"' :: escape s.toList ++ ['"']
  | .template parts => '"' :: renderParts parts ++ ['"']
  | .variable name => name.toList
  | .unary .not operand => "not ".toList ++ wrap .complement operand.level operand.render
  | .unary .negate operand => '-' :: wrap .negation operand.level operand.render
  | .binary op left right =>
    wrap op.level left.level left.render ++ ' ' :: op.symbol.toList
      ++ ' ' :: wrap op.level.tighter right.level right.render

/-- The text of the parts of a template. -/
def renderParts : List Term → List Char
  | [] => []
  | .text s :: rest => escape s.toList ++ renderParts rest
  | t :: rest => '{' :: t.render ++ '}' :: renderParts rest

end

end Term

/-! ### The text of a program -/

/-- How blocks are indented. -/
structure IndentStyle where
  /-- The character that indents lines. -/
  char : Char
  /-- How many of them indent a block. -/
  step : Nat
  isIndentChar : Cursor.isIndentChar char = true
  step_pos : 0 < step

/-- The margin of a line in a number of blocks. -/
def IndentStyle.margin (style : IndentStyle) (depth : Nat) : List Char :=
  List.replicate (depth * style.step) style.char

/-- A line of a program. -/
def IndentStyle.line (style : IndentStyle) (depth : Nat) (cs : List Char) : List Char :=
  style.margin depth ++ cs ++ ['\n']

mutual

/-- The lines of a statement in a number of blocks. -/
def Sentence.render (style : IndentStyle) (depth : Nat) : Sentence → List Char
  | .assign name value => style.line depth (name.toList ++ " = ".toList ++ value.render)
  | .output value => style.line depth ("<< ".toList ++ value.render)
  | .input name .any => style.line depth (">> ".toList ++ name.toList)
  | .input name type =>
    style.line depth (">> ".toList ++ name.toList ++ " as ".toList ++ type.word.toList)
  | .loop condition body =>
    style.line depth ("while ".toList ++ condition.render) ++ body.render style (depth + 1)
  | .choice condition body rest =>
    style.line depth ("if ".toList ++ condition.render) ++ body.render style (depth + 1)
      ++ rest.render style depth

/-- The lines of a body. -/
def Body.render (style : IndentStyle) (depth : Nat) : Body → List Char
  | .one s => s.render style depth
  | .more s rest => s.render style depth ++ rest.render style depth

/-- The lines of the rest of a choice. -/
def ElsePart.render (style : IndentStyle) (depth : Nat) : ElsePart → List Char
  | .nothing => []
  | .otherwise body => style.line depth "else".toList ++ body.render style (depth + 1)
  | .branch condition body rest =>
    style.line depth ("else if ".toList ++ condition.render) ++ body.render style (depth + 1)
      ++ rest.render style depth

end

/-- The text of a program. -/
def renderProgram (style : IndentStyle) (ss : List Sentence) : String :=
  String.ofList (ss.flatMap (Sentence.render style 0))

end DialogScript
