import DialogScript.CommandLine.Arguments
import DialogScript.CommandLine.Conversation
import DialogScript.CommandLine.Path
import DialogScript.Json.Reader
import DialogScript.Program.Loader

/-!
# The command

What the program does when it is called: given its arguments, the files around it and the lines
that are typed, `Command.perform` tells what is said, which files are written and how the call
ends.

The work on a file is split in two, so that a caller can hold the conversation itself:
`Command.openTask` says what the text of the file leads to, and `Command.closing` what is said when
a conversation has ended.
-/

namespace DialogScript

/-- Failures that the command does not handle. -/
inductive Failure where
  | negativeLimit
  /-- The limit is no number. -/
  | blankLimit
  /-- The stored program is no document. -/
  | unreadable
  | load (error : LoadError)
  | run (error : RunError)

/-- The text for a failure. -/
def Failure.message : Failure → String
  | .negativeLimit => Interpreter.negativeLimitMessage
  | .blankLimit => "'<' not supported between instances of 'list' and 'int'"
  | .unreadable => "the stored program cannot be read"
  | .load e => e.message
  | .run e => e.message

/-- How a call ends. -/
inductive Exit where
  | code (code : Nat)
  | failure (failure : Failure)
  /-- The budget of steps was used up. -/
  | interrupted

/-- What a call comes to. -/
structure Report where
  said : List Utterance
  /-- The files that were written, by their paths. -/
  written : List (String × String)
  exit : Exit

namespace Report

/-- A call that ends with a complaint. -/
def complaint (content : String) (code : Nat) : Report := ⟨[.complain content], [], .code code⟩

/-- A call that fails. -/
def failed (f : Failure) : Report := ⟨[], [], .failure f⟩

end Report

/-- What the text of a file leads to. -/
inductive Opening where
  | finished (report : Report)
  | conversation (interpreter : Interpreter) (run : Run)

/-- The interpreter that settings ask for. -/
def RunSettings.interpreter (s : RunSettings) : Except Failure Interpreter :=
  match s.limit with
  | none => .error .blankLimit
  | some limit =>
    match Interpreter.fresh? limit s.traceLevel with
    | some i => .ok i
    | none => .error .negativeLimit

namespace Command

/-- The file that holds the trace. -/
def traceFile : String := "debug.txt"

/-- The files that a trace leaves. -/
def traceFiles (t : Trace) : List (String × String) :=
  match t.text? with
  | some content => [(traceFile, content)]
  | none => []

/-- Files with the file of a trace put over them. -/
def withTrace (files : String → Option String) (t : Trace) (path : String) : Option String :=
  if Path.normalize path = traceFile then t.text?.or (files path) else files path

/-- How a call ends whose script was given up with an error. -/
def runFailure (files : String → Option String) (source : Source) (e : RunError) : Report :=
  match e.diagnostic? source with
  | some d => Report.complaint (d.render files Diagnostic.standardIndent ++ "\n") 1
  | none => Report.failed (.run e)

/-- How a call ends whose run has ended. -/
def closing (files : String → Option String) (source : Source) : Ending → Report
  | .completed => ⟨[], [], .code 0⟩
  | .failed e => runFailure files source e
  | .unanswered _ =>
    Report.complaint "Error: input ended while the script was waiting for a value\n" 1
  | .interrupted => ⟨[], [], .interrupted⟩

/-- Stores the program of a script beside it. -/
def emit (digits : DigitLimit) (files : String → Option String) (path script : String) : Report :=
  match parseProgram (.file path) script digits with
  | .error e => runFailure files (.file path) (.parse e)
  | .ok p =>
    let target := Path.stored path
    ⟨[.print (target ++ "\n")], [(target, p.toJson.write)], .code 0⟩

/-- Begins to run a stored program. -/
def openStored (digits : DigitLimit) (settings : RunSettings) (content : String) :
    Except Failure Opening :=
  match Json.read? content with
  | none => .error .unreadable
  | some document =>
    match Program.load document digits with
    | .error e => .error (.load e)
    | .ok (_, p) => do return .conversation (← settings.interpreter) (Run.ofProgram p)

/-- Begins to run a script. -/
def openScript (digits : DigitLimit) (settings : RunSettings) (path script : String) :
    Except Failure Opening := do
  return .conversation (← settings.interpreter) (Run.ofText (.file path) script digits)

/-- What a task does with the text of its file. -/
def openTask (digits : DigitLimit) (files : String → Option String) (task : Task)
    (path content : String) : Opening :=
  let opened : Except Failure Opening :=
    match task with
    | .emit _ => .ok (.finished (emit digits files path content))
    | .runStored _ settings => openStored digits settings content
    | .runScript _ settings => openScript digits settings path content
  match opened with
  | .ok opening => opening
  | .error f => .finished (Report.failed f)

/-- Holds the conversation that a task leads to. -/
def converse (digits : DigitLimit) (budget : Nat) (files : String → Option String)
    (lines : List String) (i : Interpreter) (r : Run) : Report :=
  let held := r.converse budget i lines digits
  let trace := held.interpreter.trace
  let last := closing (withTrace files trace) r.source held.ending
  { last with said := held.said ++ last.said, written := traceFiles trace }

/-- How a call ends whose file is not there. -/
def missingFile (path : String) : Report :=
  Report.complaint ("Error: file " ++ path ++ " not found\n") 1

/-- Does a task. -/
def performTask (digits : DigitLimit) (budget : Nat) (files : String → Option String)
    (lines : List String) (task : Task) : Report :=
  let path := Path.normalize task.path
  match files path with
  | none => missingFile path
  | some content =>
    match openTask digits files task path content with
    | .finished report => report
    | .conversation i r => converse digits budget files lines i r

/-- How a call ends whose arguments stop it. -/
def stopped : Stop → Report
  | .help => ⟨[.print helpText], [], .code 0⟩
  | .misuse e => Report.complaint e.report 2

/-- What a call with some arguments comes to, given the files around it and the lines that are
typed, within a budget of steps. -/
def perform (budget : Nat) (files : String → Option String) (arguments lines : List String)
    (digits : DigitLimit := .lifted) : Report :=
  match Task.ofArguments arguments digits with
  | .error stop => stopped stop
  | .ok task => performTask digits budget files lines task

end Command

end DialogScript
