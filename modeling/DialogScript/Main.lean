import DialogScript.CommandLine.Command

/-!
# The program

The outer layer of the command: it reads files and typed lines, prints what is said and leaves
every decision to `DialogScript.Command`.
-/

namespace DialogScript.Terminal

/-- The text of a file, if it can be read. -/
def readText? (path : String) : IO (Option String) := do
  try
    return some (← IO.FS.readFile path)
  catch _ =>
    return none

/-- The next typed line, if there is one. -/
def readLine? : IO (Option String) := do
  let line ← (← IO.getStdin).getLine
  if line.isEmpty then return none
  else if line.endsWith "\n" then return some (String.ofList line.toList.dropLast)
  else return some line

/-- Says something at once. -/
def speak : Utterance → IO Unit
  | .print content => do
    let out ← IO.getStdout
    out.putStr content
    out.flush
  | .complain content => IO.eprint content

/-- Does what a report tells, and gives the exit code. -/
def deliver (report : Report) : IO UInt32 := do
  for (path, content) in report.written do
    IO.FS.writeFile path content
  for utterance in report.said do
    speak utterance
  match report.exit with
  | .code code => return code.toUInt32
  | .failure f =>
    IO.eprintln f.message
    return 1
  | .interrupted => return 1

/-- Asks a request until a typed line is accepted. -/
partial def ask (request : Request) : IO (Option Request) := do
  speak (.print request.prompt)
  match ← readLine? with
  | none => return none
  | some line =>
    match request.hear line .standard with
    | .ok answered => return some answered
    | .error e =>
      speak (.complain (e.complaint ++ "\n"))
      ask request

/-- Writes the trace to its file, if there is one. -/
def saveTrace (i : Interpreter) : IO Unit := do
  for (path, content) in Command.traceFiles i.trace do
    IO.FS.writeFile path content

/-- Runs a program at the terminal. -/
partial def talk (i : Interpreter) (r : Run) : IO (Ending × Interpreter) := do
  match Run.step i r with
  | ⟨.quiet, i, r⟩ => talk i r
  | ⟨.done, i, r⟩ => return (.completed, (Run.close i r).1)
  | ⟨.failed e, i, r⟩ => return (.failed e, (Run.close i r).1)
  | ⟨.item (.value v), i, r⟩ =>
    speak (.print (v.display ++ "\n"))
    talk i r
  | ⟨.item (.request request), i, r⟩ =>
    saveTrace i
    match ← ask request with
    | none => return (.unanswered request, i)
    | some answered => talk i { r with request := some answered }

/-- Holds a conversation and gives the exit code. -/
def converse (i : Interpreter) (r : Run) : IO UInt32 := do
  let (i, r) := Run.start i r
  let (ending, i) ← talk i r
  saveTrace i
  let script ← readText? r.source.value
  deliver (Command.closing (fun _ => script) r.source ending)

/-- Does a task and gives the exit code. -/
def perform (task : Task) : IO UInt32 := do
  let path := Path.normalize task.path
  match ← readText? path with
  | none => deliver (Command.missingFile path)
  | some content =>
    match Command.openTask .standard (fun _ => some content) task path content with
    | .finished report => deliver report
    | .conversation i r => converse i r

end DialogScript.Terminal

/-- Does what the arguments ask for. -/
def main (arguments : List String) : IO UInt32 :=
  match DialogScript.Task.ofArguments arguments .standard with
  | .error stop => DialogScript.Terminal.deliver (DialogScript.Command.stopped stop)
  | .ok task => DialogScript.Terminal.perform task
