import DialogScript.RuntimeError
import DialogScript.Text.Quoted

/-!
# Input requests

An input statement hands a request to the host. A request is a cell that can be given a value
once: it takes the first value that converts and is of the type it asks for, and refuses every
other one without changing.
-/

namespace DialogScript

/-- A request for the value of a variable. -/
structure Request where
  name : String
  type : InputType
  span : Span
  /-- The value that was given. -/
  result : Option Value
  deriving DecidableEq, Inhabited

namespace Request

/-- A request that waits for its value. -/
def fresh (name : String) (type : InputType) (span : Span) : Request := ⟨name, type, span, none⟩

/-- Whether a request has its value. -/
def isFulfilled (r : Request) : Bool := r.result.isSome

/-- Gives a request a value. -/
def give (r : Request) (value : HostValue) : Except RuntimeError Request :=
  match r.result with
  | some _ => .error ⟨.inputGiven r.name, r.span⟩
  | none =>
    match value.toValue with
    | .error e => .error ⟨.inputUnusable r.name e, r.span⟩
    | .ok v =>
      if r.type.admits v.type then .ok { r with result := some v }
      else .error ⟨.inputType r.name r.type v.type, r.span⟩

/-- The value of a request, which has to have been given. -/
def value (r : Request) : Except RuntimeError Value :=
  match r.result with
  | some v => .ok v
  | none => .error ⟨.inputMissing, r.span⟩

/-- How a request is shown to a developer. -/
def describe (r : Request) : String :=
  "InputRequest(" ++ Text.quoted r.name ++ ", " ++ Text.quoted r.type.word ++ ")"

end Request

end DialogScript
