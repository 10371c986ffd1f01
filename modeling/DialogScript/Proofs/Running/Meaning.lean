import DialogScript.Play

/-!
# What programs mean

A semantics of statements by recursion on them, without a stack and without guards: the meaning
of a statement takes the variables and the answers of the host to an effect, which is the items
that come out, how the run ended if it did, and the variables and answers that are left.

A loop counts its own iterations, from zero each time it is entered, and fails when its condition
holds once more than the limit allows. A choice tries its branches in order and evaluates no
condition after the one that holds. A statement that fails leaves the variables as they were.
-/

namespace DialogScript

/-- What executing a part of a program comes to. -/
structure Effect where
  items : List Item
  /-- How the run ended, nothing if it goes on. -/
  ending : Option Ending
  environment : Environment
  /-- The answers that were not used. -/
  answers : List HostValue

/-- The effect of a part of a program, given the variables and the answers of the host. -/
abbrev Meaning := Environment → List HostValue → Effect

namespace Meaning

/-- Nothing happens. -/
def skip : Meaning := fun env answers => ⟨[], none, env, answers⟩

/-- The run fails. -/
def fail (e : RunError) : Meaning := fun env answers => ⟨[], some (.failed e), env, answers⟩

/-- One part after the other, unless the run ends in the first one. -/
def andThen (first second : Meaning) : Meaning := fun env answers =>
  let done := first env answers
  match done.ending with
  | some _ => done
  | none =>
    let rest := second done.environment done.answers
    { rest with items := done.items ++ rest.items }

/-- One of two parts, by a condition. -/
def branch (condition : Expr) (holds otherwise : Meaning) : Meaning := fun env answers =>
  match condition.evalCondition env with
  | .error e => fail (.ofEval e) env answers
  | .ok true => holds env answers
  | .ok false => otherwise env answers

/-- The value of an expression comes out. -/
def output (value : Expr) : Meaning := fun env answers =>
  match value.eval env with
  | .error e => fail (.ofEval e) env answers
  | .ok v => ⟨[.value v], none, env, answers⟩

/-- A variable gets the value of an expression. -/
def assign (name : String) (value : Expr) : Meaning := fun env answers =>
  match value.eval env with
  | .error e => fail (.ofEval e) env answers
  | .ok v => ⟨[], none, env.set name v, answers⟩

/-- A request comes out, and a variable gets the next answer, which the request may refuse. -/
def ask (name : String) (type : InputType) (span : Span) : Meaning := fun env answers =>
  let request := Request.fresh name type span
  match answers with
  | [] => ⟨[.request request], some (.unanswered request), env, []⟩
  | answer :: rest =>
    match (request.give answer).bind Request.value with
    | .error e => ⟨[.request request], some (.failed (.runtime e)), env, rest⟩
    | .ok v => ⟨[.request request], none, env.set name v, rest⟩

/-- A loop after `count` of its iterations. -/
def loop (limit : Nat) (condition : Expr) (span : Span) (body : Meaning) (count : Nat) :
    Meaning :=
  branch condition
    (if count < limit then body.andThen (loop limit condition span body (count + 1))
      else fail (.runtime ⟨.loopLimit limit span.line, span⟩))
    skip
termination_by limit - count

end Meaning

namespace Stmt

mutual

/-- What a statement means under a limit for the iterations of loops. -/
def meaning (limit : Nat) : Stmt → Meaning
  | .output value _ => .output value
  | .assign name value _ => .assign name value
  | .input name form span =>
    match InputType.ofJson? form with
    | none => .fail (.fault (.ofInputType form))
    | some type => .ask name type span
  | .block body _ => meaningAll limit body
  | .loop condition body span => .loop limit condition span (meaning limit body) 0
  | .choice first others otherwise _ =>
    meaningOr limit first (meaningOrAll limit others (meaning limit otherwise))
  | .absent => .skip
  | .branch condition body span =>
    .fail (.fault (.unsupportedStatement (kind (.branch condition body span))))
  | .expression e => .fail (.fault (.unsupportedStatement (kind (.expression e))))
  | .program body source => .fail (.fault (.unsupportedStatement (kind (.program body source))))

/-- What statements in order mean. -/
def meaningAll (limit : Nat) : List Stmt → Meaning
  | [] => .skip
  | s :: rest => (meaning limit s).andThen (meaningAll limit rest)

/-- What a branch means, given what happens if it is not taken. -/
def meaningOr (limit : Nat) (s : Stmt) (otherwise : Meaning) : Meaning :=
  match s with
  | .branch condition body _ => .branch condition (meaning limit body) otherwise
  | other => .fail (.fault (.noBranch other.kind "condition"))

/-- What branches mean, given what happens if none is taken. -/
def meaningOrAll (limit : Nat) (branches : List Stmt) (otherwise : Meaning) : Meaning :=
  match branches with
  | [] => otherwise
  | s :: rest => meaningOr limit s (meaningOrAll limit rest otherwise)

end

end Stmt

end DialogScript
