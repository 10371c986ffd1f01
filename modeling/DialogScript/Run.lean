import DialogScript.Evaluation
import DialogScript.Program.Parser
import DialogScript.Trace

/-!
# Runs

A run executes the statements of a program one step at a time. What is still to be done is kept
on a stack of pending statements; when the stack is empty the next statement of the program is
fetched, so a program is executed while the rest of it is not yet read. A run gives an item for
every output and every input statement and can be left alone after any of them.

Each loop is guarded by a counter of its iterations, which is known by the line of the loop and
forgotten when the loop ends. A loop whose condition holds once more than the limit allows is an
error.

The variables, the limit and the trace belong to the interpreter, which several runs may share.
-/

namespace DialogScript

/-- What all runs of a dialog share. -/
structure Interpreter where
  /-- How many iterations a loop may have. -/
  limit : Nat
  environment : Environment
  trace : Trace
  deriving Inhabited

namespace Interpreter

/-- An interpreter without variables. -/
def fresh (limit : Nat) (traceLevel : Int) : Interpreter := ⟨limit, [], .ofLevel traceLevel⟩

/-- An interpreter with a limit that a host asks for, which must not be negative. -/
def fresh? (limit : Int) (traceLevel : Int) : Option Interpreter :=
  if 0 ≤ limit then some (fresh limit.toNat traceLevel) else none

/-- The text for a limit below zero. -/
def negativeLimitMessage : String := "max_loop_iterations must not be negative"

/-- Traces an event. -/
def note (i : Interpreter) (e : TraceEvent) : Interpreter := { i with trace := i.trace.note e }

/-- Gives a variable a value. -/
def assign (i : Interpreter) (name : String) (value : Value) : Interpreter :=
  { i with environment := i.environment.set name value }

end Interpreter

/-- What a run gives its host. -/
inductive Item where
  | value (value : Value)
  | request (request : Request)
  deriving DecidableEq, Inhabited

/-- Why a run fails. -/
inductive RunError where
  | parse (error : ParseError)
  | runtime (error : RuntimeError)
  | fault (fault : ProgramFault)
  deriving DecidableEq

/-- The error of a run whose expression has no value. -/
def RunError.ofEval : EvalError → RunError
  | .runtime e => .runtime e
  | .fault f => .fault f

/-- The text for a failed run. -/
def RunError.message : RunError → String
  | .parse e => e.message
  | .runtime e => e.cause.message
  | .fault f => f.message

/-- The diagnostic of a failed run of a source. Faults of stored programs and of tokens made by
hand are about no place in a source and have none. -/
def RunError.diagnostic? (source : Source) : RunError → Option Diagnostic
  | .parse (.malformed e) => some (e.diagnostic source)
  | .parse _ => none
  | .runtime e => some (e.diagnostic source)
  | .fault _ => none

/-- The diagnostic of a failed run is about a place in the source of the run. -/
theorem RunError.source_of_diagnostic? {source : Source} {e : RunError} {d : Diagnostic}
    (h : e.diagnostic? source = some d) : d.location.source = source := by
  unfold diagnostic? at h
  split at h <;> simp at h <;> subst h <;> rfl

/-- The iterations of a loop. -/
structure LoopGuard where
  span : Span
  iterations : Nat
  deriving DecidableEq

/-- The guards of the loops that are going on, by their lines. -/
abbrev LoopGuards := List (Int × LoopGuard)

namespace LoopGuards

/-- The guard of the loop on a line. -/
def find? (guards : LoopGuards) (line : Int) : Option LoopGuard :=
  (List.find? (fun entry => entry.1 == line) guards).map (·.2)

/-- Forgets the guard of the loop on a line. -/
def forget (guards : LoopGuards) (line : Int) : LoopGuards :=
  guards.filter (fun entry => entry.1 != line)

/-- Sets the guard of the loop on a line. -/
def set (guards : LoopGuards) (line : Int) (guard : LoopGuard) : LoopGuards :=
  (line, guard) :: guards.forget line

end LoopGuards

/-- How far a run has come. -/
inductive RunStage where
  /-- Not begun. -/
  | fresh
  /-- Begun and ready to go on. -/
  | active
  /-- Begun and waiting for the value of its last request. -/
  | waiting
  | ended
  deriving DecidableEq, Inhabited

/-- The state of a run. -/
structure Run where
  source : Source
  stage : RunStage
  /-- The statements to be executed next, the first one on top. -/
  pending : List Stmt
  /-- The statements of the program that were not yet fetched. -/
  incoming : Listing Stmt ParseError
  guards : LoopGuards
  /-- The last request that was given to the host. -/
  request : Option Request
  deriving Inhabited

/-- What a step of a run comes to. -/
inductive Outcome where
  /-- The run goes on. -/
  | quiet
  | item (item : Item)
  | done
  | failed (error : RunError)

/-- A step of a run, with the interpreter and the run after it. -/
structure RunStep where
  outcome : Outcome
  interpreter : Interpreter
  run : Run

namespace Run

/-- A run of statements that has not begun. -/
def ofListing (source : Source) (statements : Listing Stmt ParseError) : Run :=
  ⟨source, .fresh, [], statements, [], none⟩

/-- A run of a text. -/
def ofText (source : Source) (text : String) (digits : DigitLimit := .lifted) : Run :=
  ofListing source (parseText text digits)

/-- A run of a program. -/
def ofProgram (p : Program) : Run := ofListing p.source ⟨p.statements, none⟩

/-- The statement to be executed next and the run without it. -/
def fetch (r : Run) : Except RunError (Option (Stmt × Run)) :=
  match r.pending with
  | s :: rest => .ok (some (s, { r with pending := rest }))
  | [] =>
    match r.incoming.items with
    | .absent :: _ => .ok none
    | s :: rest => .ok (some (s, { r with incoming := ⟨rest, r.incoming.fault⟩ }))
    | [] =>
      match r.incoming.fault with
      | some e => .error (.parse e)
      | none => .ok none

/-- A fetched statement is the first pending one or, if none is pending, the first incoming one. -/
theorem fetch_eq_some {r left : Run} {s : Stmt} (h : r.fetch = .ok (some (s, left))) :
    (∃ rest, r.pending = s :: rest ∧ left = { r with pending := rest }) ∨
      ∃ rest, r.pending = [] ∧ r.incoming.items = s :: rest ∧
        left = { r with incoming := ⟨rest, r.incoming.fault⟩ } := by
  unfold fetch at h
  split at h
  · rename_i rest hpending
    obtain ⟨rfl, rfl⟩ := Prod.mk.inj (Option.some.inj (Except.ok.inj h))
    exact .inl ⟨rest, hpending, rfl⟩
  · rename_i hpending
    split at h
    · cases h
    · rename_i rest _ hitems
      obtain ⟨rfl, rfl⟩ := Prod.mk.inj (Option.some.inj (Except.ok.inj h))
      exact .inr ⟨rest, hpending, hitems, rfl⟩
    · split at h <;> cases h

/-- Fetching fails with the error that the incoming statements end in. -/
theorem fetch_eq_error {r : Run} {e : RunError} (h : r.fetch = .error e) :
    ∃ cause, r.incoming.fault = some cause ∧ e = .parse cause := by
  unfold fetch at h
  split at h
  · cases h
  · split at h
    · cases h
    · cases h
    · split at h
      · rename_i cause hfault
        exact ⟨cause, hfault, (Except.error.inj h).symm⟩
      · cases h

/-- The run with a statement on top. -/
def push (r : Run) (s : Stmt) : Run := { r with pending := s :: r.pending }

/-- The body of the first branch whose condition holds, with the interpreter after the conditions
were traced; none if no condition holds. -/
def chooseBranch (i : Interpreter) : List Stmt → Except RunError (Option Stmt) × Interpreter
  | [] => (.ok none, i)
  | .branch condition body span :: rest =>
    match condition.evalCondition i.environment with
    | .error e => (.error (.ofEval e), i)
    | .ok holds =>
      let i := i.note (.condition span.line holds)
      if holds then (.ok (some body), i) else chooseBranch i rest
  | .loop condition _ span :: rest =>
    match condition.evalCondition i.environment with
    | .error e => (.error (.ofEval e), i)
    | .ok holds =>
      let i := i.note (.condition span.line holds)
      if holds then (.error (.fault (.noBranch "While" "block")), i) else chooseBranch i rest
  | other :: _ => (.error (.fault (.noBranch other.kind "condition")), i)

/-- One iteration of a loop, or its end. -/
def loopStep (i : Interpreter) (r : Run) (condition : Expr) (body : Stmt) (span : Span) :
    RunStep :=
  match condition.evalCondition i.environment with
  | .error e => ⟨.failed (.ofEval e), i, r⟩
  | .ok false =>
    ⟨.quiet, i.note (.loopEnd span.line), { r with guards := r.guards.forget span.line }⟩
  | .ok true =>
    let before := (r.guards.find? span.line).getD ⟨span, 0⟩
    let guard := { before with iterations := before.iterations + 1 }
    let r := { r with guards := r.guards.set span.line guard }
    if i.limit < guard.iterations then
      ⟨.failed (.runtime ⟨.loopLimit i.limit guard.span.line, guard.span⟩), i, r⟩
    else
      ⟨.quiet, i.note (.iteration span.line guard.iterations),
        (r.push (.loop condition body span)).push body⟩

/-- Executes a statement that was taken off the run. -/
def execute (i : Interpreter) (r : Run) : Stmt → RunStep
  | .output value span =>
    match value.eval i.environment with
    | .error e => ⟨.failed (.ofEval e), i, r⟩
    | .ok v => ⟨.item (.value v), i.note (.output span.line v), r⟩
  | .assign name value span =>
    match value.eval i.environment with
    | .error e => ⟨.failed (.ofEval e), i, r⟩
    | .ok v => ⟨.quiet, (i.assign name v).note (.assignment span.line name v), r⟩
  | .block body _ => ⟨.quiet, i, { r with pending := body ++ r.pending }⟩
  | .loop condition body span => loopStep i r condition body span
  | .choice first others otherwise _ =>
    match chooseBranch i (first :: others) with
    | (.error e, i) => ⟨.failed e, i, r⟩
    | (.ok chosen, i) =>
      match chosen.getD otherwise with
      | .absent => ⟨.quiet, i, r⟩
      | s => ⟨.quiet, i, r.push s⟩
  | .input name form span =>
    match InputType.ofJson? form with
    | none => ⟨.failed (.fault (.ofInputType form)), i, r⟩
    | some type =>
      let request := Request.fresh name type span
      ⟨.item (.request request), i.note (.request span.line name type),
        { r with stage := .waiting, request := some request }⟩
  | other => ⟨.failed (.fault (.unsupportedStatement other.kind)), i, r⟩

/-- Takes the value of the request that the run waits for. -/
def takeAnswer (i : Interpreter) (r : Run) : RunStep :=
  match r.request with
  | none => ⟨.quiet, i, { r with stage := .active }⟩
  | some request =>
    match request.value with
    | .error e => ⟨.failed (.runtime e), i, r⟩
    | .ok v =>
      ⟨.quiet, (i.assign request.name v).note (.assignment request.span.line request.name v),
        { r with stage := .active }⟩

/-- One step of a run. -/
def step (i : Interpreter) (r : Run) : RunStep :=
  match r.stage with
  | .ended => ⟨.done, i, r⟩
  | .waiting => takeAnswer i r
  | _ =>
    match r.fetch with
    | .error e => ⟨.failed e, i, r⟩
    | .ok none => ⟨.done, i, r⟩
    | .ok (some (s, r)) => execute i r s

/-- Takes steps until the run gives an item or ends, as many as the budget allows. A run that
uses up its budget is quiet and can be taken further. -/
def advance : Nat → Interpreter → Run → RunStep
  | 0, i, r => ⟨.quiet, i, r⟩
  | budget + 1, i, r =>
    match step i r with
    | ⟨.quiet, i, r⟩ => advance budget i r
    | other => other

/-- A budget is only a cut-off: what a run comes to within one, it comes to within every larger
one. -/
theorem advance_add {budget : Nat} {i : Interpreter} {r : Run}
    (h : (advance budget i r).outcome ≠ .quiet) (extra : Nat) :
    advance (budget + extra) i r = advance budget i r := by
  induction budget generalizing i r with
  | zero => exact absurd rfl h
  | succ budget ih =>
    rw [Nat.add_right_comm]
    simp only [advance] at h ⊢
    rcases hstep : step i r with ⟨outcome, i', r'⟩
    rw [hstep] at h
    cases outcome with
    | quiet => exact ih h
    | item | done | failed => rfl

/-- Begins a run that has not begun. -/
def start (i : Interpreter) (r : Run) : Interpreter × Run :=
  match r.stage with
  | .fresh => ({ i with trace := i.trace.start }, { r with stage := .active })
  | _ => (i, r)

/-- Ends a run. A run that has begun closes the trace. -/
def close (i : Interpreter) (r : Run) : Interpreter × Run :=
  match r.stage with
  | .ended => (i, r)
  | .fresh => (i, { r with stage := .ended })
  | _ => ({ i with trace := i.trace.stop }, { r with stage := .ended })

/-- Takes a run to its next item or its end, within a budget of steps. -/
def next (budget : Nat) (i : Interpreter) (r : Run) : RunStep :=
  let (i, r) := start i r
  match advance budget i r with
  | ⟨.done, i, r⟩ =>
    let (i, r) := close i r
    ⟨.done, i, r⟩
  | ⟨.failed e, i, r⟩ =>
    let (i, r) := close i r
    ⟨.failed e, i, r⟩
  | other => other

/-- Gives the last request of a run a value. -/
def give (r : Run) (request : Request) (value : HostValue) : Except RuntimeError Run := do
  return { r with request := some (← request.give value) }

end Run

end DialogScript
