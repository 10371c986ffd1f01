import DialogScript.Source

/-!
# Spans and locations

A span is a nonempty run of columns on one line; columns count from 1 and the final column is the
first one past the run. A location is a span in a source.
-/

namespace DialogScript

/-- A nonempty run of columns on one line, up to and without `final`. -/
structure Span where
  line : Int
  initial : Int
  final : Int
  nonempty : initial < final
  deriving DecidableEq

/-- The columns of something that was meant to be a span and is empty. -/
structure EmptySpan where
  line : Int
  initial : Int
  final : Int
  deriving DecidableEq

/-- The text for an empty span. -/
def EmptySpan.message (e : EmptySpan) : String :=
  "empty location span " ++ toString e.initial ++ ".." ++ toString e.final ++ " at line "
    ++ toString e.line

namespace Span

/-- The span of the given columns, which have to be at least one. -/
def make (line initial final : Int) : Except EmptySpan Span :=
  if h : initial < final then .ok ⟨line, initial, final, h⟩ else .error ⟨line, initial, final⟩

/-- The span of a single column. -/
def point (line column : Int) : Span := ⟨line, column, column + 1, by omega⟩

instance : Inhabited Span := ⟨point 1 1⟩

/-- The column just past a span. -/
def after (s : Span) : Span := point s.line s.final

/-- From the start of one span to the end of another, or just the first one if they are on
different lines or the second one ends before the first starts. -/
def join (left right : Span) : Span :=
  if h : left.line = right.line ∧ left.initial < right.final then
    ⟨left.line, left.initial, right.final, h.2⟩
  else left

@[simp]
theorem join_line (left right : Span) : (join left right).line = left.line := by
  unfold join
  split <;> rfl

@[simp]
theorem join_initial (left right : Span) : (join left right).initial = left.initial := by
  unfold join
  split <;> rfl

end Span

/-- A span in a source. -/
structure Location where
  source : Source
  span : Span
  deriving DecidableEq, Inhabited

namespace Location

/-- Why two locations have no combination. -/
inductive CombineError where
  | apart
  | empty (e : EmptySpan)
  deriving DecidableEq

/-- The text for a failed combination. -/
def CombineError.message : CombineError → String
  | .apart => "cannot combine locations from different lines or sources"
  | .empty e => e.message

/-- From the start of one location to the end of another one on the same line. -/
def combine (a b : Location) : Except CombineError Location :=
  if a.source = b.source ∧ a.span.line = b.span.line then
    match Span.make a.span.line a.span.initial b.span.final with
    | .ok span => .ok ⟨a.source, span⟩
    | .error e => .error (.empty e)
  else .error .apart

/-- The location of the column just past another location. -/
def after (a : Location) : Location := ⟨a.source, a.span.after⟩

/-- How messages name a location. -/
def describe (a : Location) : String :=
  a.source.describe ++ ", line " ++ toString a.span.line

end Location

end DialogScript
