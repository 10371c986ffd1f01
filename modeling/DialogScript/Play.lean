import DialogScript.Run

/-!
# Playing a run to its end

A run whose requests are answered from a list of values, in order. `Run.play` gives all items of
the run and says how it ended; `runProgram` is for hosts that only want the output values of a
script and count a request without an answer as an error.
-/

namespace DialogScript

/-- How a played run ended. -/
inductive Ending where
  | completed
  | failed (error : RunError)
  /-- There was no answer left for a request. -/
  | unanswered (request : Request)
  /-- The budget of steps was used up. -/
  | interrupted

/-- A played run. -/
structure Play where
  items : List Item
  ending : Ending
  interpreter : Interpreter
  /-- The answers that were not used. -/
  answers : List HostValue

namespace Play

/-- A played run with an item put in front. -/
def prepend (item : Item) (p : Play) : Play := { p with items := item :: p.items }

/-- The output values of a played run. -/
def values (p : Play) : List Value :=
  p.items.filterMap fun
    | .value v => some v
    | .request _ => none

end Play

namespace Run

/-- Takes steps, as many as the budget allows, and answers each request with the next value. An
answer that a request refuses ends the run. -/
def playSteps : Nat → Interpreter → Run → List HostValue → Play
  | 0, i, _, answers => ⟨[], .interrupted, i, answers⟩
  | budget + 1, i, r, answers =>
    match step i r with
    | ⟨.quiet, i, r⟩ => playSteps budget i r answers
    | ⟨.done, i, r⟩ => ⟨[], .completed, (close i r).1, answers⟩
    | ⟨.failed e, i, r⟩ => ⟨[], .failed e, (close i r).1, answers⟩
    | ⟨.item (.value v), i, r⟩ => (playSteps budget i r answers).prepend (.value v)
    | ⟨.item (.request request), i, r⟩ =>
      match answers with
      | [] => ⟨[.request request], .unanswered request, i, []⟩
      | answer :: rest =>
        match r.give request answer with
        | .error e => ⟨[.request request], .failed (.runtime e), i, rest⟩
        | .ok r => (playSteps budget i r rest).prepend (.request request)

/-- A budget is only a cut-off: a run that ended within one ends the same way within every
larger one. -/
theorem playSteps_add {budget : Nat} {i : Interpreter} {r : Run} {answers : List HostValue}
    (h : (playSteps budget i r answers).ending ≠ .interrupted) (extra : Nat) :
    playSteps (budget + extra) i r answers = playSteps budget i r answers := by
  induction budget generalizing i r answers with
  | zero => exact absurd rfl h
  | succ budget ih =>
    rw [Nat.add_right_comm]
    simp only [playSteps] at h ⊢
    rcases hstep : step i r with ⟨outcome, i', r'⟩
    rw [hstep] at h
    cases outcome with
    | quiet => exact ih h
    | done | failed => rfl
    | item item =>
      cases item with
      | value v => exact congrArg (Play.prepend (.value v)) (ih h)
      | request request =>
        cases answers with
        | nil => rfl
        | cons answer rest =>
          dsimp only at h ⊢
          cases hgive : r'.give request answer with
          | error e => rfl
          | ok after =>
            rw [hgive] at h
            exact congrArg (Play.prepend (.request request)) (ih h)

/-- Plays a run from its beginning, within a budget of steps. -/
def play (budget : Nat) (i : Interpreter) (r : Run) (answers : List HostValue) : Play :=
  let (i, r) := start i r
  playSteps budget i r answers

end Run

/-- What a script that a host runs to its end comes to: its output values, the error that ended
it, or nothing if the budget of steps was used up. -/
def runProgram (budget : Nat) (i : Interpreter) (source : Source) (script : String)
    (answers : List HostValue) (digits : DigitLimit := .lifted) :
    Option (Except RunError (List Value)) :=
  let played := (Run.ofText source script digits).play budget i answers
  match played.ending with
  | .completed => some (.ok played.values)
  | .failed e => some (.error e)
  | .unanswered request =>
    some (.error (.runtime ⟨.inputsExhausted request.name, request.span⟩))
  | .interrupted => none

end DialogScript
