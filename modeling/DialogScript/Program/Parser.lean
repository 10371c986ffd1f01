import DialogScript.InputType
import DialogScript.Program.Feed
import DialogScript.Program.Tree
import DialogScript.Token.Lexer

/-!
# From tokens to programs

Expressions are parsed by levels of precedence. From the loosest to the tightest these are `or`,
`xor`, `and`, comparisons, `not`, sums, products, the minus sign, and primary expressions. Binary
operators group to the left; `not` and the minus sign can be repeated.

Statements come one after the other: the listing of a program's statements holds those that are
complete before the first error.
-/

namespace DialogScript

/-- The levels of precedence. -/
inductive Level where
  | disjunction
  | exclusion
  | conjunction
  | comparison
  | complement
  | sum
  | product
  | negation
  | primary
  deriving DecidableEq

namespace Level

/-- How many levels are tighter. -/
def height : Level → Nat
  | .disjunction => 8
  | .exclusion => 7
  | .conjunction => 6
  | .comparison => 5
  | .complement => 4
  | .sum => 3
  | .product => 2
  | .negation => 1
  | .primary => 0

/-- The next tighter level. -/
def tighter : Level → Level
  | .disjunction => .exclusion
  | .exclusion => .conjunction
  | .conjunction => .comparison
  | .comparison => .complement
  | .complement => .sum
  | .sum => .product
  | .product => .negation
  | .negation => .primary
  | .primary => .primary

theorem height_tighter_lt {level : Level} (h : level ≠ .primary) :
    level.tighter.height < level.height := by
  cases level <;> first | decide | exact absurd rfl h

/-- The unary operator of a level and the kind of its token. -/
def unary? : Level → Option (UnaryOperator × TokenKind)
  | .complement => some (.not, .keyword .notWord)
  | .negation => some (.negate, .sign .minus)
  | _ => none

/-- Whether a token of a kind is an operator between the operands of a level. -/
def isOperator : Level → TokenKind → Bool
  | .disjunction, kind => kind == .keyword .orWord
  | .exclusion, kind => kind == .keyword .xorWord
  | .conjunction, kind => kind == .keyword .andWord
  | .comparison, kind =>
    [.sign .equal, .sign .notEqual, .sign .less, .sign .greater, .sign .lessOrEqual,
      .sign .greaterOrEqual].contains kind
  | .sum, kind => kind == .sign .plus || kind == .sign .minus
  | .product, kind => kind == .sign .times || kind == .sign .divide || kind == .sign .percent
  | _, _ => false

end Level

namespace Parser

/-- The least integer of a script. -/
def leastInteger : Int := -2147483648

/-- The greatest integer of a script. -/
def greatestInteger : Int := 2147483647

/-- The expression of an integer token, which has to be in the range of script integers. A token
that is too long is not even held against that range. -/
def integerLiteral (t : Token) (span : Span) (digits : DigitLimit) : Except ParseError Expr :=
  match Numeral.readInteger t.text digits with
  | .error fault => .error (.badInteger fault)
  | .ok n =>
    if leastInteger ≤ n ∧ n ≤ greatestInteger then .ok (.integer n span)
    else .error (.malformed ⟨.integerRange t.text, span⟩)

/-- The expression of a float token. -/
def floatLiteral (t : Token) (span : Span) : Except ParseError Expr :=
  match Numeral.readReal? t.text with
  | none => .error (.badReal t.text)
  | some x => .ok (.float x.toSingle span)

/-- The operator of a token. -/
def operatorOf (t : Token) : Except ParseError BinaryOperator :=
  match BinaryOperator.ofSymbol? t.text with
  | some op => .ok op
  | none => .error (.unknownOperator t.text)

/-- Whether a primary expression can start with a token of a kind. -/
def startsPrimary (kind : TokenKind) : Bool :=
  [.integer, .float, .text, .stringStart, .keyword .trueWord, .keyword .falseWord, .name,
    .sign .openParen].contains kind

/-- Whether a token of a kind can stand directly in a string. -/
def isStringPart (kind : TokenKind) : Bool :=
  kind == .text || kind == .holeStart || kind == .stringEnd

/-- The text gathered so far in a string, as a part of it. -/
def literalPart : Option (String × Span) → List Expr
  | some (text, span) => [.text text span]
  | none => []

/-- The text gathered in a string, with one more fragment. -/
def addFragment (literal : Option (String × Span)) (text : String) (span : Span) : String × Span :=
  match literal with
  | some (before, first) => (before ++ text, first.join span)
  | none => (text, span)

/-- The expression of a string with given parts: a string of at most one text is that text. -/
def stringExpr (parts : List Expr) (span : Span) : Expr :=
  match parts with
  | [] => .text "" span
  | [.text value _] => .text value span
  | parts => .template parts span

mutual

/-- Parses an expression of a level. -/
def expressionAt (level : Level) (f : Feed) : Except ParseError (Expr × f.Shorter) := do
  if hlevel : level = .primary then primary f
  else
    have := Level.height_tighter_lt hlevel
    match level.unary? with
    | some (op, kind) =>
      match ← f.accept (· == kind) with
      | some (t, ⟨f₁, h₁⟩) =>
        let (operand, ⟨f₂, h₂⟩) ← expressionAt level f₁
        return (.unary op operand ((← t.place).join operand.span), ⟨f₂, by omega⟩)
      | none => expressionAt level.tighter f
    | none =>
      let (left, ⟨f₁, h₁⟩) ← expressionAt level.tighter f
      let (e, ⟨f₂, h₂⟩) ← chain level left f₁
      return (e, ⟨f₂, by omega⟩)
termination_by (f.remaining, level.height + 1)

/-- Parses the operators and operands of a level that follow a first operand. -/
def chain (level : Level) (left : Expr) (f : Feed) : Except ParseError (Expr × f.NoLonger) := do
  match ← f.accept level.isOperator with
  | none => return (left, ⟨f, Nat.le_refl _⟩)
  | some (t, ⟨f₁, h₁⟩) =>
    let (right, ⟨f₂, h₂⟩) ← expressionAt level.tighter f₁
    let op ← operatorOf t
    let (e, ⟨f₃, h₃⟩) ← chain level (.binary op left right (left.span.join right.span)) f₂
    return (e, ⟨f₃, by omega⟩)
termination_by (f.remaining, 0)

/-- Parses a primary expression. -/
def primary (f : Feed) : Except ParseError (Expr × f.Shorter) := do
  match ← f.accept startsPrimary with
  | none => .error (f.complaint (.expected "an expression" f.current))
  | some (t, ⟨f₁, h₁⟩) =>
    let span ← t.place
    match t.kind with
    | .integer => return (← integerLiteral t span f.digits, ⟨f₁, h₁⟩)
    | .float => return (← floatLiteral t span, ⟨f₁, h₁⟩)
    | .text => return (.text t.text span, ⟨f₁, h₁⟩)
    | .keyword .trueWord => return (.boolean true span, ⟨f₁, h₁⟩)
    | .keyword .falseWord => return (.boolean false span, ⟨f₁, h₁⟩)
    | .name => return (.variable t.text span, ⟨f₁, h₁⟩)
    | .stringStart =>
      let (parts, last, ⟨f₂, h₂⟩) ← stringParts f₁ none
      return (stringExpr parts (span.join (← last.place)), ⟨f₂, by omega⟩)
    | _ =>
      let (e, ⟨f₂, h₂⟩) ← expressionAt .disjunction f₁
      let (_, ⟨f₃, h₃⟩) ← f₂.expect (.sign .closeParen) "')'"
      return (e, ⟨f₃, by omega⟩)
termination_by (f.remaining, 0)

/-- Parses the parts of a string up to its closing token, which is given with them. The text
fragments between two holes make one part. -/
def stringParts (f : Feed) (literal : Option (String × Span)) :
    Except ParseError (List Expr × Token × f.Shorter) := do
  match ← f.accept isStringPart with
  | none => .error (f.complaint (.unexpectedInString f.current))
  | some (t, ⟨f₁, h₁⟩) =>
    match t.kind with
    | .text =>
      let (parts, last, ⟨f₂, h₂⟩) ←
        stringParts f₁ (some (addFragment literal t.text (← t.place)))
      return (parts, last, ⟨f₂, by omega⟩)
    | .holeStart =>
      let (e, ⟨f₂, h₂⟩) ← expressionAt .disjunction f₁
      let (_, ⟨f₃, h₃⟩) ← f₂.expect .holeEnd "'\x7d'"
      let (parts, last, ⟨f₄, h₄⟩) ← stringParts f₃ none
      return (literalPart literal ++ e :: parts, last,
        ⟨f₄, by omega⟩)
    | _ => return (literalPart literal, t, ⟨f₁, h₁⟩)
termination_by (f.remaining, 0)

end

/-- Parses an expression. -/
def expression (f : Feed) : Except ParseError (Expr × f.Shorter) := expressionAt .disjunction f

/-! ### Statements -/

/-- Parses an assignment. -/
def assignment (f : Feed) : Except ParseError (Stmt × f.Shorter) := do
  let (name, ⟨f₁, h₁⟩) ← f.take
  let (_, ⟨f₂, h₂⟩) ← f₁.take
  let (value, ⟨f₃, h₃⟩) ← expression f₂
  let ⟨f₄, h₄⟩ ← f₃.expectLineEnd
  return (.assign name.text value ((← name.place).join value.span), ⟨f₄, by omega⟩)

/-- Parses an output. -/
def output (f : Feed) : Except ParseError (Stmt × f.Shorter) := do
  let (sign, ⟨f₁, h₁⟩) ← f.take
  let (value, ⟨f₂, h₂⟩) ← expression f₁
  let ⟨f₃, h₃⟩ ← f₂.expectLineEnd
  return (.output value ((← sign.place).join value.span), ⟨f₃, by omega⟩)

/-- The type that a word of an input statement stands for. -/
def inputType? : String → Option InputType
  | "number" => some .number
  | "string" => some .text
  | "boolean" => some .boolean
  | "bool" => some .boolean
  | _ => none

/-- Parses an input, which takes a value of any type unless it names one. -/
def input (f : Feed) : Except ParseError (Stmt × f.Shorter) := do
  let (sign, ⟨f₁, h₁⟩) ← f.take
  let (name, ⟨f₂, h₂⟩) ← f₁.expect .name "a variable name"
  let span := (← sign.place).join (← name.place)
  if f₂.current.kind = .name ∧ f₂.current.text = "as" then
    let (_, ⟨f₃, h₃⟩) ← f₂.take
    let (word, ⟨f₄, h₄⟩) ← f₃.expect .name "an input type"
    match inputType? word.text with
    | none => .error (f₄.complaintAbout word (.unknownInputType word.text))
    | some type =>
      let span := span.join (← word.place)
      let ⟨f₅, h₅⟩ ← f₄.expectLineEnd
      return (.input name.text type.toJson span, ⟨f₅, by omega⟩)
  else
    let ⟨f₃, h₃⟩ ← f₂.expectLineEnd
    return (.input name.text InputType.any.toJson span, ⟨f₃, by omega⟩)

/-- Whether a block ends before a token of a kind. -/
def endsBlock (kind : TokenKind) : Bool := kind == .dedent || kind == .sourceEnd

/-- Why no statement starts with the current token. -/
def noStatement (f : Feed) : ParseError :=
  let t := f.current
  match t.kind with
  | .name => f.complaintAbout f.following (.expectedAssignment t.text f.following)
  | .keyword .breakWord => f.complaint (.reserved t.text)
  | .keyword .continueWord => f.complaint (.reserved t.text)
  | .keyword .elseWord => f.complaint .strayElse
  | _ => f.complaint (.unexpected t)

mutual

/-- Parses a statement. -/
def statement (f : Feed) : Except ParseError (Stmt × f.Shorter) :=
  match f.current.kind with
  | .name => if f.following.kind = .sign .assign then assignment f else .error (noStatement f)
  | .sign .output => output f
  | .sign .input => input f
  | .indent => block f
  | .keyword .whileWord => loop f
  | .keyword .ifWord => choice f
  | _ => .error (noStatement f)
termination_by (f.remaining, 1)

/-- Parses the statements of a block up to its end. -/
def statements (f : Feed) : Except ParseError (List Stmt × f.NoLonger) := do
  if endsBlock f.current.kind then return ([], ⟨f, Nat.le_refl _⟩)
  else
    let (s, ⟨f₁, h₁⟩) ← statement f
    let (rest, ⟨f₂, h₂⟩) ← statements f₁
    return (s :: rest, ⟨f₂, by omega⟩)
termination_by (f.remaining, 2)

/-- Parses an indented block. -/
def block (f : Feed) : Except ParseError (Stmt × f.Shorter) := do
  let (indent, ⟨f₁, h₁⟩) ← f.expect .indent "indentation"
  let (body, ⟨f₂, h₂⟩) ← statements f₁
  let (_, ⟨f₃, h₃⟩) ← f₂.expect .dedent "end of block"
  return (.block body (← indent.place), ⟨f₃, by omega⟩)
termination_by (f.remaining, 0)

/-- Parses the indented body that has to follow the header of a loop or a branch, which ends with
the given span. -/
def body (f : Feed) (header : Span) (owner : BodyOwner) :
    Except ParseError (Stmt × f.Shorter) := do
  if f.current.kind ≠ .lineEnd then
    .error (f.complaint (.expected "end of line" f.current))
  else if f.following.kind ≠ .indent then
    .error (.malformed ⟨.missingBody owner, header.after⟩)
  else
    let (_, ⟨f₁, h₁⟩) ← f.take
    let (s, ⟨f₂, h₂⟩) ← block f₁
    return (s, ⟨f₂, by omega⟩)
termination_by (f.remaining, 0)

/-- Parses a loop. -/
def loop (f : Feed) : Except ParseError (Stmt × f.Shorter) := do
  let (keyword, ⟨f₁, h₁⟩) ← f.take
  let (condition, ⟨f₂, h₂⟩) ← expression f₁
  let (s, ⟨f₃, h₃⟩) ← body f₂ condition.span .loop
  return (.loop condition s (← keyword.place), ⟨f₃, by omega⟩)
termination_by (f.remaining, 0)

/-- Parses a choice. -/
def choice (f : Feed) : Except ParseError (Stmt × f.Shorter) := do
  let (keyword, ⟨f₁, h₁⟩) ← f.take
  let (condition, ⟨f₂, h₂⟩) ← expression f₁
  let (s, ⟨f₃, h₃⟩) ← body f₂ condition.span .branch
  let span ← keyword.place
  let (others, otherwise, ⟨f₄, h₄⟩) ← elseParts f₃
  return (.choice (.branch condition s span) others otherwise span, ⟨f₄, by omega⟩)
termination_by (f.remaining, 0)

/-- Parses the further branches of a choice and what is done if no branch is taken. -/
def elseParts (f : Feed) : Except ParseError (List Stmt × Stmt × f.NoLonger) := do
  match ← f.accept (· == .keyword .elseWord) with
  | none => return ([], .absent, ⟨f, Nat.le_refl _⟩)
  | some (elseToken, ⟨f₁, h₁⟩) =>
    match ← f₁.accept (· == .keyword .ifWord) with
    | some (ifToken, ⟨f₂, h₂⟩) =>
      let (condition, ⟨f₃, h₃⟩) ← expression f₂
      let (s, ⟨f₄, h₄⟩) ← body f₃ condition.span .elseBranch
      let span := (← elseToken.place).join (← ifToken.place)
      let (others, otherwise, ⟨f₅, h₅⟩) ← elseParts f₄
      return (.branch condition s span :: others, otherwise, ⟨f₅, by omega⟩)
    | none =>
      let (s, ⟨f₂, h₂⟩) ← body f₁ (← elseToken.place) .otherwise
      return ([], s, ⟨f₂, by omega⟩)
termination_by (f.remaining, 0)

end

/-- The statements of a feed up to the end of the source or the first error. -/
def statementsFrom (f : Feed) : Listing Stmt ParseError :=
  if f.current.kind = .sourceEnd then ⟨[], none⟩
  else
    match statement f with
    | .error e => ⟨[], some e⟩
    | .ok (s, ⟨f₁, _⟩) => (statementsFrom f₁).prepend [s]
termination_by f.remaining

end Parser

/-- The statements that tokens make up. -/
def parseTokens (tokens : Listing Token SyntaxError) (digits : DigitLimit := .lifted) :
    Listing Stmt ParseError :=
  match Feed.start tokens digits with
  | .error e => ⟨[], some e⟩
  | .ok f => Parser.statementsFrom f

/-- The statements of a text. -/
def parseText (text : String) (digits : DigitLimit := .lifted) : Listing Stmt ParseError :=
  parseTokens (tokensOf text) digits

/-- The program of a text that comes from a source. -/
def parseProgram (source : Source) (text : String) (digits : DigitLimit := .lifted) :
    Except ParseError Program := do
  return ⟨← (parseText text digits).toExcept, source⟩

end DialogScript
