import DialogScript.Number.Numeral
import DialogScript.Request

/-!
# Typed answers

A person answers a request by typing lines. A line for a string request is taken as it is; for
other requests the blanks around it do not count, and it is read as a number or a truth value if
the request admits one. A request is asked again until a line is accepted.
-/

namespace DialogScript

/-- The number that a word stands for. A whole number that is too long is read as a real one. -/
def typedNumber? (word : String) (digits : DigitLimit := .lifted) : Option HostValue :=
  match Numeral.readInteger word digits with
  | .ok n => some (.integer n)
  | .error _ => (Numeral.readReal? word).map .real

/-- The truth value that a word stands for, in capital or small letters. -/
def typedBoolean? (word : String) : Option HostValue :=
  match String.ofList (word.toList.map Char.toLower) with
  | "true" => some (.boolean true)
  | "false" => some (.boolean false)
  | _ => none

/-- The value that a typed line stands for. -/
def readAnswer? (type : InputType) (line : String) (digits : DigitLimit := .lifted) :
    Option HostValue :=
  let word := String.ofList (Text.trim Text.isBlank line.toList)
  match type with
  | .text => some (.text line)
  | .number => typedNumber? word digits
  | .boolean => typedBoolean? word
  | .any =>
    match typedNumber? word digits with
    | some v => some v
    | none =>
      match typedBoolean? word with
      | some v => some v
      | none => some (.text line)

/-- Why a typed line is not accepted. -/
inductive AnswerError where
  /-- The line does not stand for a value of the wanted type. -/
  | unreadable (wanted : String)
  /-- The request refuses the value. -/
  | refused (error : RuntimeError)
  deriving DecidableEq

/-- The text for a line that is not accepted. -/
def AnswerError.message : AnswerError → String
  | .unreadable wanted => "please enter a " ++ wanted
  | .refused e => e.cause.message

/-- What is said about a line that is not accepted. -/
def AnswerError.complaint (e : AnswerError) : String := "Invalid input: " ++ e.message

/-- A request that was asked until a line was accepted or no line was left. -/
structure Asked where
  /-- Why the lines before the accepted one were not accepted. -/
  refusals : List AnswerError
  /-- The request with its value and the lines behind the accepted one. -/
  answered : Option (Request × List String)

namespace Request

/-- What a person is asked. -/
def prompt (r : Request) : String := r.name ++ "? "

/-- Gives a request the value of a typed line. -/
def hear (r : Request) (line : String) (digits : DigitLimit := .lifted) :
    Except AnswerError Request :=
  match readAnswer? r.type line digits with
  | none => .error (.unreadable r.type.word)
  | some value =>
    match r.give value with
    | .ok r => .ok r
    | .error e => .error (.refused e)

/-- Asks a request until one of the lines is accepted. -/
def ask (r : Request) (lines : List String) (digits : DigitLimit := .lifted) : Asked :=
  match lines with
  | [] => ⟨[], none⟩
  | line :: rest =>
    match r.hear line digits with
    | .ok r => ⟨[], some (r, rest)⟩
    | .error e =>
      let later := r.ask rest digits
      ⟨e :: later.refusals, later.answered⟩

end Request

end DialogScript
