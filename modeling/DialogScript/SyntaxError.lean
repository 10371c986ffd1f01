import DialogScript.Diagnostic
import DialogScript.Text.Visible
import DialogScript.Token

/-!
# Syntax errors

Everything that can be wrong with the text of a script, as a cause and the span it is about. The
wording of the causes is in one place, `SyntaxCause.message`.
-/

namespace DialogScript

/-- The parts of a script that need an indented body. -/
inductive BodyOwner where
  | loop
  | branch
  | elseBranch
  | otherwise
  deriving DecidableEq

/-- What is said about a missing body. -/
def BodyOwner.complaint : BodyOwner → String
  | .loop => "While loop has no body"
  | .branch => "If statement has no body"
  | .elseBranch => "Else-if clause has no body"
  | .otherwise => "Else clause has no body"

/-- The causes of syntax errors. -/
inductive SyntaxCause where
  | expectedCharacter (wanted found : Option Char)
  | mixedIndentation (style found : Char)
  | inconsistentIndentation
  | unexpectedSymbol (symbol : Char)
  | missingFraction
  | unclosedString
  | unclosedHole
  | blockStringInHole
  | invalidEscape (found : Option Char)
  | expected (what : String) (found : Token)
  | expectedAssignment (name : String) (found : Token)
  | unexpected (found : Token)
  | unexpectedInString (found : Token)
  | reserved (word : String)
  | strayElse
  | unknownInputType (word : String)
  | missingBody (owner : BodyOwner)
  | integerRange (numeral : String)
  deriving DecidableEq

open Text in
/-- The wording of a cause. -/
def SyntaxCause.message : SyntaxCause → String
  | .expectedCharacter wanted found =>
    "Expected '" ++ visible wanted ++ "' but found '" ++ visible found ++ "'"
  | .mixedIndentation style found =>
    "Mixed indentation styles, expected '" ++ visible (some style) ++ "' but found '"
      ++ visible (some found) ++ "'"
  | .inconsistentIndentation => "Inconsistent indentation"
  | .unexpectedSymbol symbol => "Unexpected symbol '" ++ visible (some symbol) ++ "'"
  | .missingFraction => "Expected a digit after the decimal point"
  | .unclosedString => "String is not closed with a quote"
  | .unclosedHole => "Inline expression is not closed with a brace"
  | .blockStringInHole => "Multi-line strings are not allowed inside an inline expression"
  | .invalidEscape found => "Invalid escape sequence '\\" ++ visible found ++ "'"
  | .expected what found => "Expected " ++ what ++ " but found " ++ found.describe
  | .expectedAssignment name found =>
    "Expected '=' after '" ++ name ++ "' but found " ++ found.describe
  | .unexpected found => "Unexpected " ++ found.describe
  | .unexpectedInString found => "Unexpected " ++ found.describe ++ " in string"
  | .reserved word => "'" ++ word ++ "' is reserved and not supported"
  | .strayElse => "'else' without a matching 'if'"
  | .unknownInputType word =>
    "Unknown input type '" ++ word ++ "', expected number, string or boolean"
  | .missingBody owner => owner.complaint
  | .integerRange numeral => "Integer literal " ++ numeral ++ " is out of range"

/-- A cause and the span it is about. -/
structure SyntaxError where
  cause : SyntaxCause
  span : Span
  deriving DecidableEq

/-- The diagnostic of a syntax error in a source. -/
def SyntaxError.diagnostic (source : Source) (e : SyntaxError) : Diagnostic :=
  ⟨.reading, e.cause.message, ⟨source, e.span⟩⟩

end DialogScript
