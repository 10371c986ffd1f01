import DialogScript.Listing
import DialogScript.Number.Numeral
import DialogScript.SyntaxError

/-!
# The token feed

The parser reads tokens through a feed that shows the current token and the one after it. Two
tokens are always known, so a fault behind the tokens of a listing comes up as soon as one of the
two would have to be read past it, and not before. Past the last token the feed shows the end of
the source for ever.

Taking a token leaves a shorter feed. The parser ends because every part of it returns the feed
it leaves together with that fact.
-/

namespace DialogScript

/-- Why tokens cannot be parsed. Beside the syntax errors there is the fault of a numeral that is
too long to be read; the others are faults that only tokens made by hand can have. -/
inductive ParseError where
  | malformed (error : SyntaxError)
  | emptySpan (error : EmptySpan)
  | unknownOperator (symbol : String)
  | badInteger (fault : Numeral.IntegerFault)
  | badReal (numeral : String)
  deriving DecidableEq

/-- The text for tokens that cannot be parsed. -/
def ParseError.message : ParseError → String
  | .malformed error => error.cause.message
  | .emptySpan error => error.message
  | .unknownOperator symbol => symbol
  | .badInteger fault => fault.message
  | .badReal numeral => Numeral.realComplaint numeral

/-- Tokens to be parsed. -/
structure Feed where
  /-- The tokens from the current one on. -/
  tokens : List Token
  /-- What the feed shows past the last token. -/
  ending : Token
  /-- The fault behind the last token. -/
  fault : Option SyntaxError
  /-- How long the numerals are that can be read. -/
  digits : DigitLimit

namespace Feed

/-- How many tokens are left. -/
def remaining (f : Feed) : Nat := f.tokens.length

/-- A feed that has fewer tokens left. -/
abbrev Shorter (f : Feed) := { next : Feed // next.remaining < f.remaining }

/-- A feed that has at most as many tokens left. -/
abbrev NoLonger (f : Feed) := { next : Feed // next.remaining ≤ f.remaining }

/-- The end of the source after some tokens. -/
def endAfter (tokens : List Token) : Token :=
  match tokens.getLast? with
  | some last => ⟨.sourceEnd, "", last.line, last.final, last.final + 1⟩
  | none => ⟨.sourceEnd, "", 1, 1, 2⟩

/-- Whether a list has two items or more. -/
def hasTwo {α : Type} : List α → Bool
  | _ :: _ :: _ => true
  | _ => false

/-- A feed of tokens, if the first two of them are known. -/
def start (l : Listing Token SyntaxError) (digits : DigitLimit := .lifted) :
    Except ParseError Feed :=
  match l.fault with
  | some e =>
    if hasTwo l.items then .ok ⟨l.items, endAfter l.items, some e, digits⟩
    else .error (.malformed e)
  | none => .ok ⟨l.items, endAfter l.items, none, digits⟩

/-- The current token. -/
def current (f : Feed) : Token := f.tokens.headD f.ending

/-- The token after the current one. -/
def following (f : Feed) : Token := f.tokens.tail.headD f.ending

end Feed

/-- The span of a token. -/
def Token.place (t : Token) : Except ParseError Span :=
  match t.span with
  | .ok span => .ok span
  | .error e => .error (.emptySpan e)

/-- The syntax error about a token. -/
def Token.complaint (t : Token) (cause : SyntaxCause) : ParseError :=
  match t.span with
  | .ok span => .malformed ⟨cause, span⟩
  | .error e => .emptySpan e

namespace Feed

/-- The syntax error about the current token. -/
def complaint (f : Feed) (cause : SyntaxCause) : ParseError := f.current.complaint cause

/-- The syntax error about a token, or about the current one if that token has no text to point
at. -/
def complaintAbout (f : Feed) (t : Token) (cause : SyntaxCause) : ParseError :=
  if t.text = "" then f.complaint cause else t.complaint cause

/-- Takes the current token. -/
def take (f : Feed) : Except ParseError (Token × f.Shorter) :=
  match h : f.tokens with
  | [] => .error (f.complaint (.unexpected f.ending))
  | t :: rest =>
    have : rest.length < f.tokens.length := by simp [h]
    match f.fault with
    | some e =>
      if hasTwo rest then .ok (t, ⟨{ f with tokens := rest }, this⟩) else .error (.malformed e)
    | none => .ok (t, ⟨{ f with tokens := rest }, this⟩)

/-- Takes the current token if it is of a kind in a class, to which the end of the source does
not belong. -/
def accept (f : Feed) (p : TokenKind → Bool) : Except ParseError (Option (Token × f.Shorter)) :=
  if p f.current.kind then f.take.map some else .ok none

/-- Takes the current token, which has to be of a kind. -/
def expect (f : Feed) (kind : TokenKind) (what : String) : Except ParseError (Token × f.Shorter) :=
  if f.current.kind = kind then f.take
  else .error (f.complaint (.expected what f.current))

/-- Takes the end of a line. -/
def expectLineEnd (f : Feed) : Except ParseError f.Shorter := do
  return (← f.expect .lineEnd "end of line").2

end Feed

end DialogScript
