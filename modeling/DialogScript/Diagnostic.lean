import DialogScript.Span
import DialogScript.Text.Lines

/-!
# Diagnostics

A diagnostic is a message about a place in a script. Rendered in full it shows the offending line
and underlines the place with carets, keeping the tabs of the line so that the carets stand under
their columns.
-/

namespace DialogScript

/-- What was going on when a diagnostic arose. -/
inductive DiagnosticKind where
  | general
  | reading
  | running
  deriving DecidableEq

/-- The heading of a kind of diagnostics. -/
def DiagnosticKind.heading : DiagnosticKind → String
  | .general => "ScriptError"
  | .reading => "ScriptSyntaxError"
  | .running => "ScriptRuntimeError"

/-- A message about a place in a script. -/
structure Diagnostic where
  kind : DiagnosticKind
  message : String
  location : Location
  deriving DecidableEq

namespace Diagnostic

/-- The message with the line it is about. -/
def summary (d : Diagnostic) : String := d.message ++ " (" ++ d.location.describe ++ ")"

/-- The start of a text up to a bound. A negative bound counts from the end. -/
def takeTo (bound : Int) (cs : List Char) : List Char :=
  if 0 ≤ bound then cs.take bound.toNat else cs.take ((cs.length : Int) + bound).toNat

/-- What stands before the carets: a tab under each tab of the line and a space under every other
column. -/
def padding (span : Span) (line : List Char) : List Char :=
  ((takeTo (span.initial - 1) line).map fun c => if c == '\t' then '\t' else ' ')
    ++ List.replicate (span.initial - 1 - (line.length : Int)).toNat ' '

/-- One caret for each column of a span. -/
def carets (span : Span) : List Char := List.replicate (span.final - span.initial).toNat '^'

/-- The line that a diagnostic is about, if its source can be read and has that line. -/
def line? (files : String → Option String) (d : Diagnostic) : Option (List Char) :=
  (d.location.source.text? files).bind fun text => Text.line? text.toList d.location.span.line

/-- The lines of a rendered diagnostic. -/
def renderLines (files : String → Option String) (indent : String) (d : Diagnostic) :
    List String :=
  let heading := d.kind.heading ++ ": " ++ d.message
  match d.line? files with
  | none => [heading, d.location.describe, indent ++ "<line unavailable>"]
  | some line =>
    [heading, d.location.describe, indent ++ String.ofList line,
      indent ++ String.ofList (padding d.location.span line ++ carets d.location.span)]

/-- A diagnostic with the offending line and an underline. -/
def render (files : String → Option String) (indent : String) (d : Diagnostic) : String :=
  "\n".intercalate (d.renderLines files indent)

/-- The indentation of quoted lines unless a host asks for another one. -/
def standardIndent : String := "    "

end Diagnostic

end DialogScript
