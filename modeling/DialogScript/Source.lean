/-!
# Sources

Where a script comes from: a text that the host hands over, a file, or nowhere in particular. A
source is a name and opens nothing; `Source.text?` looks its text up, given how to look up the
text of a file.
-/

namespace DialogScript

/-- The kinds of sources. Only inline texts and files can be read; a source of another kind is a
mere label, the usual one being `none`. -/
inductive SourceKind where
  | inline
  | file
  | other (label : String)
  deriving DecidableEq, Inhabited

namespace SourceKind

/-- The word for a kind in stored programs. -/
def word : SourceKind → String
  | .inline => "inline"
  | .file => "file"
  | .other label => label

/-- The kind that a word of a stored program stands for. -/
def ofWord (word : String) : SourceKind :=
  if word = "inline" then .inline
  else if word = "file" then .file
  else .other word

end SourceKind

/-- Where a script comes from. The value is the text of an inline source and the path of a
file. -/
structure Source where
  kind : SourceKind
  value : String
  deriving DecidableEq, Inhabited

namespace Source

/-- The source of what comes from nowhere in particular. -/
def empty : Source := ⟨.other "none", ""⟩

/-- A text handed over by the host. -/
def inline (text : String) : Source := ⟨.inline, text⟩

/-- A file. -/
def file (path : String) : Source := ⟨.file, path⟩

/-- How messages name a source. -/
def describe (s : Source) : String :=
  match s.kind with
  | .inline => "Inline"
  | .file => "File \"" ++ s.value ++ "\""
  | .other _ => "Empty"

/-- The text of a source, if it has one. -/
def text? (files : String → Option String) (s : Source) : Option String :=
  match s.kind with
  | .inline => some s.value
  | .file => files s.value
  | .other _ => none

end Source

end DialogScript
