import DialogScript.Json
import DialogScript.Value

/-!
# Input types

The types that an input statement can ask for, with the words that stand for them in scripts,
stored programs and messages.
-/

namespace DialogScript

/-- The types that an input statement can ask for. -/
inductive InputType where
  | any
  | number
  | text
  | boolean
  deriving DecidableEq, Inhabited

namespace InputType

/-- The word for an input type. -/
def word : InputType → String
  | .any => "any"
  | .number => "number"
  | .text => "string"
  | .boolean => "boolean"

/-- The input type that a word stands for. -/
def ofWord? : String → Option InputType
  | "any" => some .any
  | "number" => some .number
  | "string" => some .text
  | "boolean" => some .boolean
  | _ => none

private theorem ofWord?_word (t : InputType) : ofWord? t.word = some t := by
  cases t <;> rfl

/-- The stored form of an input type, which is its word. -/
def toJson (t : InputType) : Json := .text t.word

/-- The input type that a stored form stands for. -/
def ofJson? : Json → Option InputType
  | .text word => ofWord? word
  | _ => none

@[simp]
theorem ofJson?_toJson (t : InputType) : ofJson? t.toJson = some t := ofWord?_word t

/-- Whether a value of a type is what an input type asks for. -/
def admits : InputType → ValueType → Bool
  | .any, _ => true
  | .number, type => type == .integer || type == .float
  | .text, type => type == .text
  | .boolean, type => type == .boolean

end InputType

end DialogScript
