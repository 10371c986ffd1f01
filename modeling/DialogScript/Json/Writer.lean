import DialogScript.Json
import DialogScript.Number.Layout
import DialogScript.Text.Quoted

/-!
# Writing JSON

`Json.write` writes a document over several lines, each level of nesting indented by two more
spaces. Characters other than quotes, backslashes and control characters are written as they
are; a number with a fraction is written with the fewest digits that read back as the same
double.
-/

namespace DialogScript.Json

open Text

/-- Doubles are written positionally from `0.0001` up to sixteen digits, and a whole double keeps
a zero after the point. -/
def realLayout : Layout := ⟨-4, 16, ".0", "e"⟩

/-- The text of a double. -/
def writeReal : Floating → String
  | .nan => "NaN"
  | .infinite s => if s then "-Infinity" else "Infinity"
  | .zero s => if s then "-0.0" else "0.0"
  | .finite q =>
    (if q < 0 then "-" else "") ++ realLayout.write (Decimal.shortest (Floating.magnitude q))

/-- A character inside a text. -/
def escapeChar (c : Char) : List Char :=
  if c == '"' || c == '\\' then ['\\', c]
  else if c == '\n' then ['\\', 'n']
  else if c == '\r' then ['\\', 'r']
  else if c == '\t' then ['\\', 't']
  else if c == '\x0c' then ['\\', 'f']
  else if c == '\x08' then ['\\', 'b']
  else if c.toNat < 0x20 then '\\' :: 'u' :: hexDigits 4 c.toNat
  else [c]

/-- A text between quotes. -/
def writeText (s : String) : String :=
  String.ofList ('"' :: s.toList.flatMap escapeChar ++ ['"'])

/-- A line break and the indentation of a level of nesting. -/
def newLine (depth : Nat) : String := String.ofList ('\n' :: List.replicate (2 * depth) ' ')

mutual

/-- A document that stands at a level of nesting. -/
def writeAt (depth : Nat) : Json → String
  | .null => "null"
  | .boolean b => if b then "true" else "false"
  | .integer n => toString n
  | .real x => writeReal x
  | .text s => writeText s
  | .array [] => "[]"
  | .array (item :: rest) =>
    "[" ++ newLine (depth + 1) ++ writeAt (depth + 1) item ++ writeItems (depth + 1) rest
      ++ newLine depth ++ "]"
  | .object [] => "\x7b\x7d"
  | .object ((key, value) :: rest) =>
    "\x7b" ++ newLine (depth + 1) ++ writeText key ++ ": " ++ writeAt (depth + 1) value
      ++ writeFields (depth + 1) rest ++ newLine depth ++ "\x7d"

/-- The items after the first one. -/
def writeItems (depth : Nat) : List Json → String
  | [] => ""
  | item :: rest => "," ++ newLine depth ++ writeAt depth item ++ writeItems depth rest

/-- The fields after the first one. -/
def writeFields (depth : Nat) : List (String × Json) → String
  | [] => ""
  | (key, value) :: rest =>
    "," ++ newLine depth ++ writeText key ++ ": " ++ writeAt depth value
      ++ writeFields depth rest

end

/-- A document as text. -/
def write (j : Json) : String := writeAt 0 j

end DialogScript.Json
