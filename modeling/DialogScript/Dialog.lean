import DialogScript.Run

/-!
# Dialogs

A dialog is an interpreter with any number of runs, each known by a name. The host advances the
runs in any order; they share the variables and the trace. A name can be used again, which closes
the run that had it.
-/

namespace DialogScript

/-- What a host does with a dialog. -/
inductive DialogStep where
  /-- Makes a run of a text; nothing of it is executed yet. -/
  | start (name : String) (script : String)
  /-- Takes a run to its next item. -/
  | next (name : String)
  /-- Gives the last request of a run a value. -/
  | give (name : String) (value : HostValue)
  /-- Ends a run. -/
  | close (name : String)

/-- What comes of a step of a dialog. -/
inductive DialogReply where
  | started
  | item (item : Item)
  | ended
  | given
  | noRequest
  | closed
  | failed (source : Source) (error : RunError)
  /-- The budget of a step was used up. -/
  | interrupted

/-- An interpreter and the runs on it. -/
structure Dialog where
  interpreter : Interpreter
  runs : List (String × Run)
  /-- How long the numerals are that can be read. -/
  digits : DigitLimit

namespace Dialog

/-- A dialog without runs. -/
def ofInterpreter (i : Interpreter) (digits : DigitLimit := .lifted) : Dialog := ⟨i, [], digits⟩

/-- The variables of a dialog. -/
def environment (d : Dialog) : Environment := d.interpreter.environment

/-- The run with a name. -/
def run? (d : Dialog) (name : String) : Option Run := d.runs.lookup name

/-- The last request of the run with a name. -/
def request? (d : Dialog) (name : String) : Option Request :=
  (d.run? name).bind (·.request)

/-- Sets the run with a name. -/
def putRun (d : Dialog) (name : String) (r : Run) : Dialog :=
  { d with runs := (name, r) :: d.runs.filter (fun entry => entry.1 != name) }

theorem run?_putRun_self (d : Dialog) (name : String) (r : Run) :
    (d.putRun name r).run? name = some r := by
  simp [putRun, run?]

theorem run?_putRun_of_ne (d : Dialog) {name other : String} (r : Run) (h : other ≠ name) :
    (d.putRun name r).run? other = d.run? other := by
  have different : (other == name) = false := by simpa using h
  have lookup_filter : ∀ runs : List (String × Run),
      (runs.filter (fun entry => entry.1 != name)).lookup other = runs.lookup other := by
    intro runs
    induction runs with
    | nil => rfl
    | cons entry rest ih =>
      obtain ⟨n, run⟩ := entry
      by_cases hn : n = name
      · subst hn
        simp [ih, List.lookup_cons, different]
      · simp [List.lookup_cons, hn, ih]
  simp [putRun, run?, List.lookup_cons, different, lookup_filter]

/-- Ends the run with a name, if there is one. -/
def closeRun (d : Dialog) (name : String) : Dialog :=
  match d.run? name with
  | none => d
  | some r =>
    let (i, r) := r.close d.interpreter
    { d with interpreter := i }.putRun name r

/-- Takes the run with a name to its next item, within a budget of steps. -/
def advanceRun (budget : Nat) (d : Dialog) (name : String) : DialogReply × Dialog :=
  match d.run? name with
  | none => (.ended, d)
  | some r =>
    let ⟨outcome, i, after⟩ := r.next budget d.interpreter
    let d := { d with interpreter := i }.putRun name after
    match outcome with
    | .quiet => (.interrupted, d)
    | .item item => (.item item, d)
    | .done => (.ended, d)
    | .failed e => (.failed after.source e, d)

/-- Gives the last request of the run with a name a value. -/
def giveRun (d : Dialog) (name : String) (value : HostValue) : DialogReply × Dialog :=
  match d.run? name with
  | none => (.noRequest, d)
  | some r =>
    match r.request with
    | none => (.noRequest, d)
    | some request =>
      match r.give request value with
      | .ok after => (.given, d.putRun name after)
      | .error e => (.failed r.source (.runtime e), d)

/-- Does one step of a dialog, within a budget for the steps of a run. -/
def perform (budget : Nat) (d : Dialog) : DialogStep → DialogReply × Dialog
  | .start name script =>
    (.started, (d.closeRun name).putRun name (Run.ofText (.inline script) script d.digits))
  | .next name => d.advanceRun budget name
  | .give name value => d.giveRun name value
  | .close name => (.closed, d.closeRun name)

/-- Does steps in order, each within a budget, and gives the replies. -/
def performAll (budget : Nat) (d : Dialog) : List DialogStep → List DialogReply × Dialog
  | [] => ([], d)
  | step :: rest =>
    let (reply, after) := d.perform budget step
    let (replies, last) := after.performAll budget rest
    (reply :: replies, last)

end Dialog

end DialogScript
