import DialogScript.Request

/-!
# Traces

A dialog can keep a trace of what its runs do. The level says how much is written: outputs and
requests from level 1 on, assignments from level 2 on, conditions and loops from level 3 on.

All runs of a dialog write to one file. It is opened when a run begins and is not open already,
anew for the first run and for appending after that, and it is closed by whichever run ends
first; what is traced while it is closed is not written.
-/

namespace DialogScript

/-- What a line of a trace reports. -/
inductive TraceEvent where
  | output (line : Int) (value : Value)
  | request (line : Int) (name : String) (type : InputType)
  | assignment (line : Int) (name : String) (value : Value)
  | condition (line : Int) (holds : Bool)
  | iteration (line : Int) (count : Nat)
  | loopEnd (line : Int)
  deriving DecidableEq

namespace TraceEvent

/-- The least level at which an event is traced. -/
def level : TraceEvent → Int
  | .output _ _ => 1
  | .request _ _ _ => 1
  | .assignment _ _ _ => 2
  | .condition _ _ => 3
  | .iteration _ _ => 3
  | .loopEnd _ => 3

/-- A value with its type, as a trace shows it. -/
def showValue (v : Value) : String := v.type.name ++ " " ++ Text.quoted v.display

/-- The line of a trace that reports an event. -/
def text : TraceEvent → String
  | .output line v => "line " ++ toString line ++ ": output " ++ showValue v
  | .request line name type =>
    "line " ++ toString line ++ ": input " ++ name ++ " as " ++ type.word
  | .assignment line name v =>
    "line " ++ toString line ++ ": " ++ name ++ " = " ++ showValue v
  | .condition line holds =>
    "line " ++ toString line ++ ": if condition -> " ++ (Value.boolean holds).display
  | .iteration line count =>
    "line " ++ toString line ++ ": while iteration " ++ toString count
  | .loopEnd line => "line " ++ toString line ++ ": while loop finished"

end TraceEvent

/-- The trace of a dialog. -/
structure Trace where
  level : Int
  /-- The events in the file, none if there is no file. -/
  written : Option (List TraceEvent)
  isOpen : Bool
  /-- How many runs have begun. -/
  runs : Nat
  deriving DecidableEq, Inhabited

namespace Trace

/-- The trace of a dialog that has not run yet. -/
def ofLevel (level : Int) : Trace := ⟨level, none, false, 0⟩

/-- Notes that a run begins, and opens the file if there is something to trace and the file is
closed. -/
def start (t : Trace) : Trace :=
  if 0 < t.level ∧ t.isOpen = false then
    { t with
      written := if t.runs = 0 then some [] else some (t.written.getD [])
      isOpen := true
      runs := t.runs + 1 }
  else { t with runs := t.runs + 1 }

/-- Closes the file. -/
def stop (t : Trace) : Trace := { t with isOpen := false }

/-- Traces an event, if the level asks for it and the file is open. -/
def note (t : Trace) (e : TraceEvent) : Trace :=
  if e.level ≤ t.level ∧ t.isOpen then { t with written := some (t.written.getD [] ++ [e]) } else t

/-- The text of the file, if there is one. -/
def text? (t : Trace) : Option String :=
  t.written.map fun events => String.join (events.map fun e => e.text ++ "\n")

end Trace

end DialogScript
