/-!
# Lines of a text

A line ends at a carriage return, a line feed, the two together, the next-line character or one
of the two Unicode separators. `normalizeBreaks` writes every line break as one line feed, so
that later stages know a single break; `lines` cuts a text at its breaks.
-/

namespace DialogScript.Text

/-- The characters that end a line by themselves. -/
def isBreak (c : Char) : Bool :=
  c == '\n' || c == '\r' || c == '\u2028' || c == '\u2029' || c == '\u0085'

/-- Writes every line break as one line feed; a carriage return and a following line feed are
one break. -/
def normalizeBreaks : List Char → List Char
  | [] => []
  | '\r' :: '\n' :: rest => '\n' :: normalizeBreaks rest
  | c :: rest => (if isBreak c then '\n' else c) :: normalizeBreaks rest

/-- The pieces of a text between line feeds, at least one. -/
def splitBreaks : List Char → List (List Char)
  | [] => [[]]
  | '\n' :: rest => [] :: splitBreaks rest
  | c :: rest =>
    match splitBreaks rest with
    | [] => [[c]]
    | line :: more => (c :: line) :: more

/-- The lines of a text, cut at its line breaks. -/
def lines (cs : List Char) : List (List Char) := splitBreaks (normalizeBreaks cs)

/-- The line with a given number, the first being line 1. -/
def line? (cs : List Char) (number : Int) : Option (List Char) :=
  if 1 ≤ number then (lines cs)[number.toNat - 1]? else none

theorem splitBreaks_ne_nil (cs : List Char) : splitBreaks cs ≠ [] := by
  unfold splitBreaks
  split <;> try simp
  split <;> simp

end DialogScript.Text
