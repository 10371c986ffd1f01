import DialogScript.CommandLine.Answer
import DialogScript.Play

/-!
# Conversations

A run at a terminal: every output value is printed on a line of its own, and every request is
asked until a typed line is accepted. A conversation is what was said on both channels and how
the run ended; a request without a line left for it leaves the run unanswered.
-/

namespace DialogScript

/-- What is said in a conversation. -/
inductive Utterance where
  /-- A text on the standard output. -/
  | print (content : String)
  /-- A text on the channel for errors. -/
  | complain (content : String)
  deriving DecidableEq

namespace Utterance

/-- All that was printed. -/
def printed (said : List Utterance) : String :=
  String.join (said.map fun
    | .print content => content
    | .complain _ => "")

/-- All that was complained about. -/
def complained (said : List Utterance) : String :=
  String.join (said.map fun
    | .print _ => ""
    | .complain content => content)

end Utterance

/-- What is said while a request is asked: the prompt once for every line, and a complaint about
every line that is not accepted. -/
def Asked.said (a : Asked) (prompt : String) : List Utterance :=
  (a.refusals.flatMap fun e => [.print prompt, .complain (e.complaint ++ "\n")])
    ++ [.print prompt]

/-- A run at a terminal. -/
structure Conversation where
  said : List Utterance
  ending : Ending
  interpreter : Interpreter

namespace Conversation

/-- A conversation with something said before it. -/
def prepend (said : List Utterance) (c : Conversation) : Conversation :=
  { c with said := said ++ c.said }

end Conversation

namespace Run

/-- Takes steps, as many as the budget allows, and answers the requests from typed lines. -/
def converseSteps (digits : DigitLimit) : Nat → Interpreter → Run → List String → Conversation
  | 0, i, _, _ => ⟨[], .interrupted, i⟩
  | budget + 1, i, r, lines =>
    match step i r with
    | ⟨.quiet, i, r⟩ => converseSteps digits budget i r lines
    | ⟨.done, i, r⟩ => ⟨[], .completed, (close i r).1⟩
    | ⟨.failed e, i, r⟩ => ⟨[], .failed e, (close i r).1⟩
    | ⟨.item (.value v), i, r⟩ =>
      (converseSteps digits budget i r lines).prepend [.print (v.display ++ "\n")]
    | ⟨.item (.request request), i, r⟩ =>
      let asked := request.ask lines digits
      match asked.answered with
      | none => ⟨asked.said request.prompt, .unanswered request, i⟩
      | some (answered, rest) =>
        (converseSteps digits budget i { r with request := some answered } rest).prepend
          (asked.said request.prompt)

/-- A budget is only a cut-off: a conversation that ended within one ends the same way within
every larger one. -/
theorem converseSteps_add {digits : DigitLimit} {budget : Nat} {i : Interpreter} {r : Run}
    {lines : List String} (h : (converseSteps digits budget i r lines).ending ≠ .interrupted)
    (extra : Nat) :
    converseSteps digits (budget + extra) i r lines = converseSteps digits budget i r lines := by
  induction budget generalizing i r lines with
  | zero => exact absurd rfl h
  | succ budget ih =>
    rw [Nat.add_right_comm]
    simp only [converseSteps] at h ⊢
    rcases hstep : step i r with ⟨outcome, i', r'⟩
    rw [hstep] at h
    cases outcome with
    | quiet => exact ih h
    | done | failed => rfl
    | item item =>
      cases item with
      | value v => exact congrArg (Conversation.prepend _) (ih h)
      | request request =>
        dsimp only at h ⊢
        cases hask : (request.ask lines digits).answered with
        | none => rfl
        | some answer =>
          rw [hask] at h
          exact congrArg (Conversation.prepend _) (ih h)

/-- Runs a program at a terminal, within a budget of steps. -/
def converse (budget : Nat) (i : Interpreter) (r : Run) (lines : List String)
    (digits : DigitLimit := .lifted) : Conversation :=
  let (i, r) := start i r
  converseSteps digits budget i r lines

end Run

/-- The lines that can be read from a text. Each ends at a line feed, which does not belong to
it; what stands behind the last one is a line unless it is empty. -/
def typedLines (content : String) : List String :=
  let lines := content.splitOn "\n"
  if lines.getLast? = some "" then lines.dropLast else lines

end DialogScript
