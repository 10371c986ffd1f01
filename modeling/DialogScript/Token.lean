import DialogScript.Span

/-!
# Tokens

The smallest parts of a script. A string is not a single token: it is an opening and a closing
token with text fragments and holes between them, and the tokens of a hole's expression stand
between the tokens of its braces. Indentation, the end of a line and the end of the source are
tokens too.

Tokens can also be made by hand. Such a token may carry any text and any columns, so the span of
a token is checked where it is asked for.
-/

namespace DialogScript

/-- The reserved words. -/
inductive Keyword where
  | trueWord
  | falseWord
  | andWord
  | orWord
  | notWord
  | xorWord
  | whileWord
  | breakWord
  | continueWord
  | ifWord
  | elseWord
  deriving DecidableEq, Inhabited

namespace Keyword

/-- All reserved words. -/
def all : List Keyword :=
  [.trueWord, .falseWord, .andWord, .orWord, .notWord, .xorWord, .whileWord, .breakWord,
    .continueWord, .ifWord, .elseWord]

/-- How a script spells a reserved word. -/
def spelling : Keyword → String
  | .trueWord => "true"
  | .falseWord => "false"
  | .andWord => "and"
  | .orWord => "or"
  | .notWord => "not"
  | .xorWord => "xor"
  | .whileWord => "while"
  | .breakWord => "break"
  | .continueWord => "continue"
  | .ifWord => "if"
  | .elseWord => "else"

/-- The tag of a reserved word's token. -/
def tag : Keyword → String
  | .trueWord => "TRUE"
  | .falseWord => "FALSE"
  | .andWord => "AND"
  | .orWord => "OR"
  | .notWord => "NOT"
  | .xorWord => "XOR"
  | .whileWord => "WHILE"
  | .breakWord => "BREAK"
  | .continueWord => "CONTINUE"
  | .ifWord => "IF"
  | .elseWord => "ELSE"

/-- The reserved word with a given spelling. -/
def ofSpelling? (word : String) : Option Keyword := all.find? fun k => k.spelling == word

end Keyword

/-- The signs that a script is punctuated with. -/
inductive Sign where
  | output
  | input
  | assign
  | equal
  | notEqual
  | less
  | greater
  | lessOrEqual
  | greaterOrEqual
  | plus
  | minus
  | times
  | divide
  | percent
  | openParen
  | closeParen
  deriving DecidableEq, Inhabited

namespace Sign

/-- All signs. -/
def all : List Sign :=
  [.output, .input, .assign, .equal, .notEqual, .less, .greater, .lessOrEqual, .greaterOrEqual,
    .plus, .minus, .times, .divide, .percent, .openParen, .closeParen]

/-- How a script spells a sign, which is also the tag of its token. -/
def spelling : Sign → String
  | .output => "<<"
  | .input => ">>"
  | .assign => "="
  | .equal => "=="
  | .notEqual => "!="
  | .less => "<"
  | .greater => ">"
  | .lessOrEqual => "<="
  | .greaterOrEqual => ">="
  | .plus => "+"
  | .minus => "-"
  | .times => "*"
  | .divide => "/"
  | .percent => "%"
  | .openParen => "("
  | .closeParen => ")"

end Sign

/-- The kinds of tokens. A kind of token that no script yields is known by its tag. -/
inductive TokenKind where
  | integer
  | float
  | text
  | name
  | keyword (word : Keyword)
  | sign (mark : Sign)
  | stringStart
  | stringEnd
  | holeStart
  | holeEnd
  | indent
  | dedent
  | lineEnd
  | sourceEnd
  | unknown (tag : String)
  deriving DecidableEq, Inhabited

namespace TokenKind

/-- The kinds with a fixed tag that are neither reserved words nor signs. -/
def plainKinds : List TokenKind :=
  [.integer, .float, .text, .name, .stringStart, .stringEnd, .holeStart, .holeEnd, .indent,
    .dedent, .lineEnd, .sourceEnd]

/-- The tag of a kind of tokens. -/
def tag : TokenKind → String
  | .integer => "INT"
  | .float => "FLOAT"
  | .text => "STRING"
  | .name => "IDENT"
  | .keyword w => w.tag
  | .sign mark => mark.spelling
  | .stringStart => "STRING_START"
  | .stringEnd => "STRING_END"
  | .holeStart => "EXPR_START"
  | .holeEnd => "EXPR_END"
  | .indent => "INDENT"
  | .dedent => "DEDENT"
  | .lineEnd => "NEWLINE"
  | .sourceEnd => "EOS"
  | .unknown tag => tag

/-- All kinds of tokens that a script can yield. -/
def all : List TokenKind :=
  plainKinds ++ Keyword.all.map .keyword ++ Sign.all.map .sign

/-- The kind of tokens with a given tag. -/
def ofTag (tag : String) : TokenKind :=
  (all.find? fun kind => kind.tag == tag).getD (.unknown tag)

end TokenKind

/-- A token with its text and its columns. -/
structure Token where
  kind : TokenKind
  text : String
  line : Int
  initial : Int
  final : Int
  deriving DecidableEq, Inhabited

namespace Token

/-- The span of a token, which a token made by hand may lack. -/
def span (t : Token) : Except EmptySpan Span := Span.make t.line t.initial t.final

/-- A token at a span. -/
def atSpan (kind : TokenKind) (text : String) (s : Span) : Token :=
  ⟨kind, text, s.line, s.initial, s.final⟩

/-- How messages name a token. -/
def describe (t : Token) : String :=
  match t.kind with
  | .lineEnd => "end of line"
  | .sourceEnd => "end of source"
  | .indent => "indentation"
  | .dedent => "end of block"
  | .text => "string"
  | .stringStart => "string"
  | _ => "'" ++ t.text ++ "'"

end Token

end DialogScript
