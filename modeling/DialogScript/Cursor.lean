import DialogScript.SyntaxError
import DialogScript.Text.Digit
import DialogScript.Text.Letter
import DialogScript.Text.Numeric

/-!
# The cursor

A cursor stands in the text of a script and reads it from left to right. It knows one line break,
the line feed, and no comments: reading a `#` skips to the end of the line and gives the line
break there, also where the text ends without one. It keeps the line and the column of the next
character and the indentation style, which is the first character that ever indented a line.

Reading shortens what is left (`remaining_lt_of_read?`), which is why the stages above the cursor
come to an end.
-/

namespace DialogScript

open Text

/-- A place in the text of a script. -/
structure Cursor where
  /-- The text from the next character on, with all line breaks written as line feeds. -/
  rest : List Char
  line : Nat
  column : Nat
  /-- The character that indents lines, once a line is indented. -/
  style : Option Char
  deriving DecidableEq, Inhabited

namespace Cursor

/-- The cursor at the start of a text. -/
def ofText (text : String) : Cursor := ⟨normalizeBreaks text.toList, 1, 1, none⟩

/-- How many characters are left. -/
def remaining (c : Cursor) : Nat := c.rest.length

/-- The next character, none at the end of the source. -/
def peek (c : Cursor) : Option Char := c.rest.head?

/-- Whether a character is left. -/
def canRead (c : Cursor) : Bool := !c.rest.isEmpty

/-- Whether the next character is the first one of its line. -/
def atLineStart (c : Cursor) : Bool := c.column == 1

/-- Whether nothing but a comment is left on the line. -/
def atLineEnd (c : Cursor) : Bool :=
  match c.rest with
  | [] => true
  | ch :: _ => ch == '\n' || ch == '#'

/-- The span of the next character. -/
def point (c : Cursor) : Span := Span.point c.line c.column

/-- The start of the next line, with `rest` left. -/
def nextLine (c : Cursor) (rest : List Char) : Cursor :=
  { c with rest := rest, line := c.line + 1, column := 1 }

/-- The place `width` columns further on the same line, with `rest` left. -/
def forward (c : Cursor) (width : Nat) (rest : List Char) : Cursor :=
  { c with rest := rest, column := c.column + width }

/-- Reads the next character. A comment reads as the line break that ends it. -/
def read? (c : Cursor) : Option (Char × Cursor) :=
  match c.rest with
  | [] => none
  | ch :: rest =>
    if ch = '\n' then some ('\n', c.nextLine rest)
    else if ch = '#' then some ('\n', c.nextLine ((rest.dropWhile (· != '\n')).drop 1))
    else some (ch, c.forward 1 rest)

theorem length_dropWhile_le {α : Type} (p : α → Bool) (xs : List α) :
    (xs.dropWhile p).length ≤ xs.length := by
  induction xs with
  | nil => simp
  | cons x xs ih =>
    rw [List.dropWhile_cons]
    split
    · exact Nat.le_succ_of_le ih
    · exact Nat.le_refl _

/-- Reading leaves less than there was. -/
theorem remaining_lt_of_read? {c next : Cursor} {ch : Char} (h : c.read? = some (ch, next)) :
    next.remaining < c.remaining := by
  unfold read? at h
  unfold remaining
  split at h
  · simp at h
  · rename_i x rest hrest
    have hdrop := length_dropWhile_le (· != '\n') rest
    split at h
    · obtain ⟨-, rfl⟩ := by simpa using h
      simp [nextLine, hrest]
    · split at h
      · obtain ⟨-, rfl⟩ := by simpa using h
        simp [nextLine, hrest]
        omega
      · obtain ⟨-, rfl⟩ := by simpa using h
        simp [forward, hrest]

/-- The longest run of characters of a class, which holds neither the line break nor `#`. -/
def takeWhile (p : Char → Bool) (c : Cursor) : List Char × Cursor :=
  let run := c.rest.takeWhile p
  (run, c.forward run.length (c.rest.dropWhile p))

theorem remaining_takeWhile_le (p : Char → Bool) (c : Cursor) :
    (c.takeWhile p).2.remaining ≤ c.remaining := by
  simpa [takeWhile, forward, remaining] using length_dropWhile_le p c.rest

/-- Whether a character indents a line and separates tokens. -/
def isIndentChar (c : Char) : Bool := c == ' ' || c == '\t'

/-- Whether a character may start a name. -/
def startsName (c : Char) : Bool := isLetter c || c == '_'

/-- Whether a character may continue a name. -/
def continuesName (c : Char) : Bool := isLetter c || isNumeric c || c == '_'

/-- Skips spaces and tabs. -/
def skipBlanks (c : Cursor) : Cursor := (c.takeWhile isIndentChar).2

/-- Reads the next character if it is of a class. -/
def readIf (p : Char → Bool) (c : Cursor) : Option Char × Cursor :=
  if c.peek.any p then
    match c.read? with
    | some (ch, next) => (some ch, next)
    | none => (none, c)
  else (none, c)

/-- Reads as many copies of a character as there are, up to a limit, and counts them. -/
def skipAll (ch : Char) (limit : Option Nat) (c : Cursor) : Nat × Cursor :=
  if limit = some 0 || c.peek != some ch then (0, c)
  else
    match h : c.read? with
    | none => (0, c)
    | some (_, next) =>
      have := remaining_lt_of_read? h
      let (count, last) := next.skipAll ch (limit.map (· - 1))
      (count + 1, last)
termination_by c.remaining

/-- The indentation of the line that the cursor stands in, nothing at the end of the source. -/
def level (c : Cursor) : Nat := if c.canRead then c.column - 1 else 0

/-- The same place under a fixed indentation style. -/
def withStyle (ch : Char) (c : Cursor) : Cursor := { c with style := some ch }

@[simp]
theorem remaining_withStyle (ch : Char) (c : Cursor) : (c.withStyle ch).remaining = c.remaining :=
  rfl

/-- Reads the indentation of the next line that holds more than blanks and comments, together
with the lines before it, and gives its width. With a limit, no line is read beyond that many
columns of indentation. The result comes with the place where reading ended. -/
def readIndent (limit : Option Nat) (c : Cursor) : Except SyntaxError Nat × Cursor :=
  match h : c.read? with
  | none => (.ok 0, c)
  | some (_, next) =>
    have := remaining_lt_of_read? h
    if limit.any (· < c.column) then (.ok c.level, c)
    else if c.atLineEnd then next.readIndent limit
    else
      match c.peek with
      | none => (.ok 0, c)
      | some ch =>
        if isIndentChar ch then
          match c.style with
          | none => (next.withStyle ch).readIndent limit
          | some style =>
            if ch = style then next.readIndent limit
            else (.error ⟨.mixedIndentation style ch, c.point⟩, c)
        else (.ok c.level, c)
termination_by c.remaining

theorem remaining_readIndent_le (limit : Option Nat) (c : Cursor) :
    (c.readIndent limit).2.remaining ≤ c.remaining := by
  fun_induction readIndent limit c with
  | case1 | case2 | case4 | case7 | case8 => exact Nat.le_refl _
  | case3 | case5 | case6 => simp_all; omega

/-! ### Checked operations

The operations of a cursor that a host may call at any place, with what can go wrong. -/

/-- Why an operation of a cursor fails. -/
inductive Fault where
  | malformed (error : SyntaxError)
  | endOfSource
  | notAtLineStart
  | emptySpan (error : EmptySpan)
  deriving DecidableEq

/-- The text for a failed operation. -/
def Fault.message : Fault → String
  | .malformed error => error.cause.message
  | .endOfSource => "end of source reached"
  | .notAtLineStart => "cannot read indentation when not at the start of a line"
  | .emptySpan error => error.message

/-- Reads the next character, which has to be there. -/
def read (c : Cursor) : Except Fault (Char × Cursor) :=
  match c.read? with
  | some result => .ok result
  | none => .error .endOfSource

/-- Skips an expected character. The end of the source can be expected and not skipped. -/
def expect (wanted : Option Char) (c : Cursor) : Except Fault Cursor :=
  if c.peek = wanted then c.read.map (·.2)
  else .error (.malformed ⟨.expectedCharacter wanted c.peek, c.point⟩)

/-- Reads one of `0` to `9` if it is next. -/
def readDigit (c : Cursor) : Option Char × Cursor := c.readIf isAsciiDigit

/-- Reads a character of a name if it is next. -/
def readNameChar (c : Cursor) : Option Char × Cursor := c.readIf continuesName

/-- Skips copies of a character up to a limit. The end of the source cannot be skipped. -/
def skip (wanted : Option Char) (limit : Option Nat) (c : Cursor) :
    Except Fault (Nat × Cursor) :=
  match wanted with
  | some ch => .ok (c.skipAll ch limit)
  | none => if c.canRead || limit = some 0 then .ok (0, c) else .error .endOfSource

/-- Reads indentation at the start of a line, with the place where reading ended. -/
def indent (limit : Option Nat) (c : Cursor) : Except Fault Nat × Cursor :=
  if c.atLineStart then
    match c.readIndent limit with
    | (.ok width, last) => (.ok width, last)
    | (.error e, last) => (.error (.malformed e), last)
  else (.error .notAtLineStart, c)

/-- The span on the cursor's line from a column up to another one, or up to the cursor. -/
def spanFrom (initial : Int) (final : Option Int) (c : Cursor) : Except Fault Span :=
  match Span.make c.line initial (final.getD c.column) with
  | .ok span => .ok span
  | .error e => .error (.emptySpan e)

end Cursor

end DialogScript
