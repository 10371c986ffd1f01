import DialogScript.Proofs.Lexing.Checked
import DialogScript.Proofs.Parsing.Errors
import DialogScript.Proofs.Parsing.Trees
import DialogScript.Proofs.Printing.Programs
import DialogScript.Proofs.Running.Arithmetic
import DialogScript.Proofs.Running.Programs

/-!
# Runs end well or with an error about the script

A run of a text goes wrong only where the script is wrong, or where an integer in the script has
more digits than can be read. `Run.Sound` is the invariant of its states: the variables hold values
as scripts make them, every statement ahead can be executed, and an error behind the statements is a
syntax error or one that is excused. Each step keeps a state sound and fails only with an error
about a place in the script or an excused one (`step_sound`), so no state that a run comes to, with
any answers of its host, can fail otherwise (`sound_of_reached`).

That a run comes to an end follows from its meaning: what statements mean is never that a budget is
used up (`ends_meaning`), and a run with enough steps comes to what its statements mean. Together
with the checks of the lexer and of arithmetic, which never fail, this is the safety of a run
(`SafeRun`). Only integers that are too long have to be excused, and only if the parser comes to one
(`runProgram_safe`); a text that has none is run without any excuse (`SafeRun.of_admitted`).
-/

namespace DialogScript

open Stmt

/-- An error about a place in a script: a syntax error or an error of the running script. -/
inductive RunError.IsLocated : RunError → Prop
  | malformed {error : SyntaxError} : IsLocated (.parse (.malformed error))
  | runtime {error : RuntimeError} : IsLocated (.runtime error)

/-- The error of a run that comes to an integer which has more digits than can be read. -/
inductive RunError.TooLong (digits : DigitLimit) (tokens : List Token) : RunError → Prop
  | parse {cause : ParseError} (h : cause.TooLong digits tokens) :
      TooLong digits tokens (.parse cause)

/-- An error about a place has a diagnostic in the source that was run. -/
theorem RunError.IsLocated.diagnostic {e : RunError} (h : e.IsLocated) (source : Source) :
    ∃ d, e.diagnostic? source = some d ∧ d.location.source = source := by
  cases h with
  | malformed => exact ⟨_, rfl, rfl⟩
  | runtime => exact ⟨_, rfl, rfl⟩

/-! ### Expressions -/

private theorem RunError.isLocated_mapError {α : Type} {x : Except RuntimeError α} {e : EvalError}
    (h : x.mapError .runtime = .error e) : (RunError.ofEval e).IsLocated := by
  cases x with
  | ok a => cases h
  | error e' => exact Except.error.inj h ▸ .runtime

namespace Expr

variable {env : Environment}

mutual

/-- A proper expression without a value is an error of the running script. -/
theorem isLocated_of_eval {e : Expr} (h : e.Proper) {error : EvalError}
    (heval : e.eval env = .error error) : (RunError.ofEval error).IsLocated := by
  match e, h with
  | .integer n _, .integer hleast hgreatest =>
    rw [eval, Value.ofInteger, if_pos ⟨hleast, hgreatest⟩] at heval
    cases heval
  | .float _ _, _ | .boolean _ _, _ | .text _ _, _ => cases heval
  | .template parts _, .template hparts =>
    rw [eval] at heval
    split at heval
    · cases heval
    · rename_i hfailed
      exact Except.error.inj heval ▸ isLocated_of_evalParts hparts hfailed
  | .variable name span, _ =>
    rw [eval] at heval
    split at heval
    · cases heval
    · exact Except.error.inj heval ▸ .runtime
  | .unary op operand _, .unary hoperand =>
    rw [eval] at heval
    split at heval
    · exact RunError.isLocated_mapError heval
    · rename_i hfailed
      exact Except.error.inj heval ▸ isLocated_of_eval hoperand hfailed
  | .binary op left right _, .binary hl hr =>
    rw [eval] at heval
    split at heval
    · rename_i hfailed
      exact Except.error.inj heval ▸ isLocated_of_eval hl hfailed
    · split at heval
      · rename_i hfailed
        exact Except.error.inj heval ▸ isLocated_of_eval hr hfailed
      · exact RunError.isLocated_mapError heval

theorem isLocated_of_evalParts {parts : List Expr} (h : ∀ e ∈ parts, e.Proper) {error : EvalError}
    (heval : evalParts env parts = .error error) : (RunError.ofEval error).IsLocated := by
  match parts with
  | [] => cases heval
  | e :: rest =>
    obtain ⟨he, hrest⟩ := List.forall_mem_cons.mp h
    rw [evalParts] at heval
    split at heval
    · rename_i hfailed
      exact Except.error.inj heval ▸ isLocated_of_eval he hfailed
    · split at heval
      · rename_i hfailed
        exact Except.error.inj heval ▸ isLocated_of_evalParts hrest hfailed
      · cases heval

end

private theorem isLocated_of_evalCondition {e : Expr} (h : e.Proper) {error : EvalError}
    (heval : e.evalCondition env = .error error) : (RunError.ofEval error).IsLocated := by
  unfold evalCondition at heval
  split at heval
  · rename_i hfailed
    exact Except.error.inj heval ▸ isLocated_of_eval h hfailed
  · cases heval
  · exact Except.error.inj heval ▸ .runtime

end Expr

/-! ### States -/

/-- A statement that can be run, made of proper parts. -/
structure Stmt.Executable (s : Stmt) : Prop where
  runnable : Runnable s
  proper : s.Proper

theorem Stmt.RunnableAll.of_mem {ss : List Stmt} (h : RunnableAll ss) : ∀ s ∈ ss, Runnable s := by
  induction ss with
  | nil => exact List.forall_mem_nil _
  | cons s ss ih =>
    cases h with
    | cons hfirst hrest => exact List.forall_mem_cons.mpr ⟨hfirst, ih hrest⟩

namespace Run

/-- A state of a run in which nothing can go wrong but the script, apart from some errors that are
excused: the variables are as scripts make them, what is to be done can be done, and an error behind
it is a syntax error or an excused one. -/
structure Sound (Excused : RunError → Prop) (i : Interpreter) (r : Run) : Prop where
  environment : i.environment.Proper
  pending : ∀ s ∈ r.pending, s.Executable
  incoming : ∀ s ∈ r.incoming.items, s.Executable
  fault : ∀ e, r.incoming.fault = some e →
    (∃ error, e = .malformed error) ∨ Excused (.parse e)
  request : ∀ q v, r.request = some q → q.result = some v → v.Proper

/-- A step leaves a sound state, and an error that it ends with is about the script or excused. -/
structure StepSound (Excused : RunError → Prop) (s : RunStep) : Prop where
  after : Sound Excused s.interpreter s.run
  located : ∀ e, s.outcome = .failed e → e.IsLocated ∨ Excused e

variable {Excused : RunError → Prop} {i j : Interpreter} {r : Run}

theorem Sound.failed (h : Sound Excused i r) {e : RunError} (he : e.IsLocated) :
    StepSound Excused ⟨.failed e, i, r⟩ :=
  ⟨h, fun _ heq => .inl (Outcome.failed.inj heq ▸ he)⟩

theorem Sound.note (h : Sound Excused i r) (event : TraceEvent) : Sound Excused (i.note event) r :=
  ⟨h.environment, h.pending, h.incoming, h.fault, h.request⟩

theorem Sound.assign (h : Sound Excused i r) (name : String) {v : Value} (hv : v.Proper) :
    Sound Excused (i.assign name v) r :=
  ⟨h.environment.set hv, h.pending, h.incoming, h.fault, h.request⟩

theorem Sound.push (h : Sound Excused i r) {s : Stmt} (hs : s.Executable) :
    Sound Excused i (r.push s) :=
  ⟨h.environment, List.forall_mem_cons.mpr ⟨hs, h.pending⟩, h.incoming, h.fault, h.request⟩

theorem Sound.withGuards (h : Sound Excused i r) (guards : LoopGuards) :
    Sound Excused i { r with guards := guards } :=
  ⟨h.environment, h.pending, h.incoming, h.fault, h.request⟩

/-! ### Steps -/

private theorem loopStep_sound (h : Sound Excused i r) {condition : Expr} {body : Stmt}
    {span : Span}
    (hloop : Executable (.loop condition body span)) :
    StepSound Excused (loopStep i r condition body span) := by
  obtain ⟨hrunnable, hproper⟩ := hloop
  cases hproper with
  | loop hcondition hbody =>
    have hinner : body.Executable := by
      cases hrunnable with
      | loop hrun _ => exact ⟨hrun, hbody⟩
    unfold loopStep
    split
    · rename_i hfailed
      exact h.failed (Expr.isLocated_of_evalCondition hcondition hfailed)
    · exact ⟨(h.withGuards _).note _, by simp⟩
    · dsimp only
      split
      · exact (h.withGuards _).failed .runtime
      · refine ⟨Sound.note ?_ _, by simp⟩
        exact ((h.withGuards _).push ⟨hrunnable, .loop hcondition hbody⟩).push hinner

/-- The choice of a branch changes no variable, and the branch that is chosen can be run. -/
theorem chooseBranch_sound {branches : List Stmt} (hbranches : Branches branches)
    (hproper : ∀ s ∈ branches, s.Proper) (h : Sound Excused i r) :
    Sound Excused (chooseBranch i branches).2 r ∧
      (∀ e, (chooseBranch i branches).1 = .error e → e.IsLocated) ∧
      ∀ s, (chooseBranch i branches).1 = .ok (some s) → s.Executable := by
  induction branches generalizing i with
  | nil => exact ⟨h, by simp [chooseBranch], by simp [chooseBranch]⟩
  | cons first rest ih =>
    cases hbranches with
    | cons hrun hrest =>
      obtain ⟨hfirst, hproperRest⟩ := List.forall_mem_cons.mp hproper
      cases hfirst with
      | branch hcondition hbody =>
        rw [chooseBranch]
        split
        · rename_i hfailed
          refine ⟨h, fun e he => ?_, by simp⟩
          exact Except.error.inj he ▸ Expr.isLocated_of_evalCondition hcondition hfailed
        · dsimp only
          split
          · refine ⟨h.note _, by simp, fun s hs => ?_⟩
            exact Option.some.inj (Except.ok.inj hs) ▸ ⟨hrun, hbody⟩
          · exact ih hrest hproperRest (h.note _)

private theorem choice_sound (h : Sound Excused i r) {first otherwise : Stmt} {others : List Stmt}
    {span : Span} (hchoice : Executable (.choice first others otherwise span)) :
    StepSound Excused (execute i r (.choice first others otherwise span)) := by
  obtain ⟨hrunnable, hproper⟩ := hchoice
  cases hproper with
  | choice hfirst hothers hotherwise =>
    have hbranches : Branches (first :: others) ∧
        (otherwise = .absent ∨ Runnable otherwise) := by
      cases hrunnable with
      | choice hbranches hotherwise => exact ⟨hbranches, .inr hotherwise⟩
      | choiceOrNothing hbranches => exact ⟨hbranches, .inl rfl⟩
    obtain ⟨hbefore, hfailed, hchosen⟩ := chooseBranch_sound hbranches.1
      (List.forall_mem_cons.mpr ⟨hfirst, hothers⟩) h
    rw [execute]
    split
    · rename_i heq
      rw [heq] at hbefore hfailed
      exact hbefore.failed (hfailed _ rfl)
    · rename_i chosen _ heq
      rw [heq] at hbefore hchosen
      have hgoes : chosen.getD otherwise = .absent ∨ (chosen.getD otherwise).Executable := by
        cases chosen with
        | some s => exact .inr (hchosen s rfl)
        | none => exact hbranches.2.imp id fun hrun => ⟨hrun, hotherwise⟩
      split
      · exact ⟨hbefore, by simp⟩
      · rename_i hne
        exact ⟨hbefore.push (hgoes.resolve_left hne), by simp⟩

/-- A statement that can be run leaves a sound state. -/
theorem execute_sound (h : Sound Excused i r) {s : Stmt} (hs : s.Executable) :
    StepSound Excused (execute i r s) := by
  obtain ⟨hrunnable, hproper⟩ := hs
  cases hproper with
  | output hvalue =>
    rw [execute]
    split
    · rename_i hfailed
      exact h.failed (Expr.isLocated_of_eval hvalue hfailed)
    · exact ⟨h.note _, by simp⟩
  | assign hvalue =>
    rw [execute]
    split
    · rename_i hfailed
      exact h.failed (Expr.isLocated_of_eval hvalue hfailed)
    · rename_i heval
      exact ⟨(h.assign _ (Expr.proper_of_eval h.environment heval)).note _, by simp⟩
  | input =>
    rw [execute, InputType.ofJson?_toJson]
    refine ⟨⟨h.environment, h.pending, h.incoming, h.fault, ?_⟩, by simp⟩
    rintro q v ⟨⟩ hresult
    cases hresult
  | @block body span hbody =>
    have hrun : ∀ s ∈ body, Runnable s := by
      cases hrunnable with
      | block hrun => exact hrun.of_mem
    refine ⟨⟨h.environment, fun s hs => ?_, h.incoming, h.fault, h.request⟩, by simp [execute]⟩
    rcases List.mem_append.mp hs with hs | hs
    · exact ⟨hrun s hs, hbody s hs⟩
    · exact h.pending s hs
  | loop hcondition hbody => exact loopStep_sound h ⟨hrunnable, .loop hcondition hbody⟩
  | choice hfirst hothers hotherwise =>
    exact choice_sound h ⟨hrunnable, .choice hfirst hothers hotherwise⟩
  | branch | absent => cases hrunnable

private theorem takeAnswer_sound (h : Sound Excused i r) : StepSound Excused (takeAnswer i r) := by
  have hactive : Sound Excused i { r with stage := .active } :=
    ⟨h.environment, h.pending, h.incoming, h.fault, h.request⟩
  unfold takeAnswer
  split
  · exact ⟨hactive, by simp⟩
  · rename_i request hrequest
    split
    · exact h.failed .runtime
    · rename_i v hvalue
      have hv : v.Proper := by
        unfold Request.value at hvalue
        split at hvalue
        · rename_i hresult
          exact h.request _ _ hrequest (Except.ok.inj hvalue ▸ hresult)
        · cases hvalue
      exact ⟨(hactive.assign _ hv).note _, by simp⟩

/-- The statement that is fetched can be run, and what is left is sound; an error in its place is a
syntax error or an excused one. -/
theorem fetch_sound (h : Sound Excused i r) :
    (∀ s r', r.fetch = .ok (some (s, r')) → s.Executable ∧ Sound Excused i r') ∧
      ∀ e, r.fetch = .error e → e.IsLocated ∨ Excused e := by
  refine ⟨fun s r' hfetch => ?_, fun e hfetch => ?_⟩
  · rcases fetch_eq_some hfetch with ⟨rest, hpending, rfl⟩ | ⟨rest, -, hitems, rfl⟩
    · obtain ⟨hs, hrest⟩ := List.forall_mem_cons.mp (hpending ▸ h.pending)
      exact ⟨hs, h.environment, hrest, h.incoming, h.fault, h.request⟩
    · obtain ⟨hs, hrest⟩ := List.forall_mem_cons.mp (hitems ▸ h.incoming)
      exact ⟨hs, h.environment, h.pending, hrest, h.fault, h.request⟩
  · obtain ⟨cause, hfault, rfl⟩ := fetch_eq_error hfetch
    rcases h.fault cause hfault with ⟨error, rfl⟩ | hexcused
    · exact .inl .malformed
    · exact .inr hexcused

/-- A step of a run leaves a sound state. -/
theorem step_sound (h : Sound Excused i r) : StepSound Excused (step i r) := by
  unfold step
  split
  · exact ⟨h, by simp⟩
  · exact takeAnswer_sound h
  · obtain ⟨hfetched, hfailed⟩ := fetch_sound h
    split
    · rename_i hfetch
      exact ⟨h, fun _ heq => Outcome.failed.inj heq ▸ hfailed _ hfetch⟩
    · exact ⟨h, by simp⟩
    · rename_i hfetch
      obtain ⟨hs, hr⟩ := hfetched _ _ hfetch
      exact execute_sound hr hs

private theorem proper_of_give {request given : Request} {value : HostValue} {v : Value}
    (hgive : request.give value = .ok given) (hresult : given.result = some v) : v.Proper := by
  unfold Request.give at hgive
  split at hgive
  · cases hgive
  · split at hgive
    · cases hgive
    · rename_i u hvalue
      split at hgive
      · obtain rfl := Except.ok.inj hgive
        obtain rfl := Option.some.inj hresult
        exact HostValue.proper_of_toValue hvalue
      · cases hgive

private theorem give_sound (h : Sound Excused i r) {request : Request} {value : HostValue}
    {r' : Run}
    (hgive : r.give request value = .ok r') : Sound Excused i r' := by
  obtain ⟨given, hgiven, hr'⟩ := bind_eq_ok.mp hgive
  obtain rfl := pure_eq_ok.mp hr'
  refine ⟨h.environment, h.pending, h.incoming, h.fault, ?_⟩
  rintro q v ⟨⟩ hresult
  exact proper_of_give hgiven hresult

private theorem start_sound (h : Sound Excused i r) :
    Sound Excused (start i r).1 (start i r).2 := by
  unfold start
  split
  · exact ⟨h.environment, h.pending, h.incoming, h.fault, h.request⟩
  · exact h

/-! ### Runs -/

/-- The states that a run comes through from its start, by its own steps and by answers to its last
request. -/
inductive Reached (i₀ : Interpreter) (r₀ : Run) : Interpreter → Run → Prop
  | start : Reached i₀ r₀ (start i₀ r₀).1 (start i₀ r₀).2
  | step {i : Interpreter} {r : Run} (h : Reached i₀ r₀ i r) :
      Reached i₀ r₀ (step i r).interpreter (step i r).run
  | give {i : Interpreter} {r r' : Run} {request : Request} {value : HostValue}
      (h : Reached i₀ r₀ i r) (hrequest : r.request = some request)
      (hgive : r.give request value = .ok r') : Reached i₀ r₀ i r'

/-- A run that starts in a sound state comes through sound states only. -/
theorem sound_of_reached {i₀ : Interpreter} {r₀ : Run} (h₀ : Sound Excused i₀ r₀)
    (h : Reached i₀ r₀ i r) : Sound Excused i r := by
  induction h with
  | start => exact start_sound h₀
  | step _ ih => exact (step_sound ih).after
  | give _ _ hgive ih => exact give_sound ih hgive

/-- A played run that is given up is given up with an error about the script or an excused one. -/
theorem playSteps_located {budget : Nat} {answers : List HostValue} (h : Sound Excused i r)
    {e : RunError} (hending : (playSteps budget i r answers).ending = .failed e) :
    e.IsLocated ∨ Excused e := by
  induction budget generalizing i r answers with
  | zero => cases hending
  | succ budget ih =>
    have hsound := step_sound h
    rw [playSteps] at hending
    split at hending
    · rename_i hstep
      rw [hstep] at hsound
      exact ih hsound.after hending
    · cases hending
    · rename_i hstep
      rw [hstep] at hsound
      exact Ending.failed.inj hending ▸ hsound.located _ rfl
    · rename_i hstep
      rw [hstep] at hsound
      exact ih hsound.after hending
    · rename_i hstep
      rw [hstep] at hsound
      split at hending
      · cases hending
      · split at hending
        · exact .inl (Ending.failed.inj hending ▸ .runtime)
        · rename_i hgive
          exact ih (give_sound hsound.after hgive) hending

end Run

/-! ### Endings -/

/-- What something means is never that a budget is used up. -/
def Meaning.Ends (m : Meaning) : Prop :=
  ∀ env answers, (m env answers).ending ≠ some .interrupted

namespace Meaning

private theorem ends_fail (e : RunError) : (fail e).Ends := fun _ _ => by simp [fail]

theorem Ends.andThen {first second : Meaning} (h : first.Ends) (h' : second.Ends) :
    (first.andThen second).Ends := by
  intro env answers
  unfold Meaning.andThen
  dsimp only
  split
  · exact h env answers
  · exact h' _ _

theorem Ends.branch {holds otherwise : Meaning} (h : holds.Ends) (h' : otherwise.Ends)
    (condition : Expr) : (Meaning.branch condition holds otherwise).Ends := by
  intro env answers
  unfold Meaning.branch
  split
  · exact ends_fail _ env answers
  · exact h env answers
  · exact h' env answers

private theorem ends_skip : skip.Ends := fun _ _ => by simp [skip]

private theorem ends_output (value : Expr) : (output value).Ends := by
  intro env answers
  unfold output
  split
  · exact ends_fail _ env answers
  · simp

private theorem ends_assign (name : String) (value : Expr) : (assign name value).Ends := by
  intro env answers
  unfold assign
  split
  · exact ends_fail _ env answers
  · simp

private theorem ends_ask (name : String) (type : InputType) (span : Span) :
    (ask name type span).Ends := by
  intro env answers
  unfold ask
  dsimp only
  split
  · simp
  · split <;> simp

theorem Ends.loop {body : Meaning} (h : body.Ends) (limit : Nat) (condition : Expr) (span : Span)
    (count : Nat) : (Meaning.loop limit condition span body count).Ends := by
  rw [Meaning.loop]
  refine Ends.branch ?_ ends_skip condition
  split
  · exact h.andThen (h.loop limit condition span (count + 1))
  · exact ends_fail _
termination_by limit - count

end Meaning

namespace Stmt

open Meaning

mutual

/-- A statement never means that a budget is used up. -/
theorem ends_meaning (limit : Nat) (s : Stmt) : (meaning limit s).Ends := by
  match s with
  | .output value _ => exact ends_output value
  | .assign name value _ => exact ends_assign name value
  | .input name form span =>
    rw [meaning]
    split
    · exact ends_fail _
    · exact ends_ask _ _ _
  | .block body _ => exact ends_meaningAll limit body
  | .loop condition body span => exact (ends_meaning limit body).loop limit condition span 0
  | .choice first others otherwise _ =>
    exact ends_meaningOr limit first (ends_meaningOrAll limit others (ends_meaning limit otherwise))
  | .absent => exact ends_skip
  | .branch _ _ _ | .expression _ | .program _ _ => exact ends_fail _

theorem ends_meaningAll (limit : Nat) (ss : List Stmt) : (meaningAll limit ss).Ends := by
  match ss with
  | [] => exact ends_skip
  | s :: rest => exact (ends_meaning limit s).andThen (ends_meaningAll limit rest)

theorem ends_meaningOr (limit : Nat) (s : Stmt) {otherwise : Meaning} (h : otherwise.Ends) :
    (meaningOr limit s otherwise).Ends := by
  match s with
  | .branch condition body _ => exact (ends_meaning limit body).branch h condition
  | .output _ _ | .assign _ _ _ | .input _ _ _ | .block _ _ | .loop _ _ _ | .choice _ _ _ _
  | .expression _ | .program _ _ | .absent => exact ends_fail _

theorem ends_meaningOrAll (limit : Nat) (branches : List Stmt) {otherwise : Meaning}
    (h : otherwise.Ends) : (meaningOrAll limit branches otherwise).Ends := by
  match branches with
  | [] => exact h
  | s :: rest => exact ends_meaningOr limit s (ends_meaningOrAll limit rest h)

end

end Stmt

/-! ### Runs of texts -/

/-- The parser of a text fails with a syntax error only, or with an error that is excused. -/
def ParserAccounts (text : String) (digits : DigitLimit) (Excused : RunError → Prop) : Prop :=
  ∀ e, (parseText text digits).fault = some e →
    (∃ error, e = .malformed error) ∨ Excused (.parse e)

namespace Run

/-- With no statement left, a run ends or comes to the error behind the last statement. -/
theorem playSteps_expecting_nil (i : Interpreter) (r : Run) (fault : Option ParseError)
    (request : Option Request) (answers : List HostValue) :
    (playSteps 1 i ((r.expecting [] fault).asking request) answers).ending ≠ .interrupted := by
  cases fault <;> simp [playSteps, step, fetch, expecting, going, asking]

/-- A run of statements comes to an end. -/
theorem ends_expecting {ss : List Stmt} (h : RunnableAll ss) (i : Interpreter) (r : Run)
    (fault : Option ParseError) (answers : List HostValue) :
    ∃ budget, (playSteps budget i (r.expecting ss fault) answers).ending ≠ .interrupted := by
  obtain ⟨steps, last, -, -, hplay⟩ := performs_expecting h i.limit i r fault answers rfl
  have hends := ends_meaningAll i.limit ss i.environment answers
  split at hplay
  · rename_i ending hending
    refine ⟨steps + 0, ?_⟩
    rw [hplay 0]
    rintro rfl
    exact hends hending
  · obtain ⟨request, hplay⟩ := hplay
    refine ⟨steps + 1, ?_⟩
    rw [hplay 1]
    exact playSteps_expecting_nil last r fault request _

/-- A run of a text starts in a sound state if what else the parser may fail with is excused. -/
theorem sound_ofText {text : String} {digits : DigitLimit} {Excused : RunError → Prop}
    (hparser : ParserAccounts text digits Excused) (source : Source) (limit : Nat) (level : Int) :
    Sound Excused (Interpreter.fresh limit level) (ofText source text digits) := by
  obtain ⟨⟨ts, rest, -, hts⟩, -⟩ := parseText_accounts text digits
  refine ⟨List.forall_mem_nil _, List.forall_mem_nil _, fun s hs => ?_, hparser, by rintro q v ⟨⟩⟩
  exact ⟨(runnableAll_parseText text digits).of_mem s hs, Grammar.proper_of_statements hts s hs⟩

end Run

/-- The join of two spans is the first one or their combination, which then exists. -/
theorem Span.join_eq_combine (source : Source) (left right : Span) :
    join left right = left ∨
      Location.combine ⟨source, left⟩ ⟨source, right⟩ = .ok ⟨source, join left right⟩ := by
  unfold join
  split
  · rename_i h
    refine .inr ?_
    rw [Location.combine, if_pos ⟨rfl, h.1⟩, Span.make, dif_pos h.2]
  · exact .inl rfl

variable {text : String} {digits : DigitLimit} {Excused : RunError → Prop}

/-- A run of a text comes to an end, for every text, every limit and all answers of the host: with
its values, with an error about a place in the script, or with an excused one. -/
theorem runProgram_ends (hparser : ParserAccounts text digits Excused) (source : Source)
    (limit : Nat) (level : Int) (answers : List HostValue) : ∃ budget outcome,
    (∀ more, runProgram (budget + more) (Interpreter.fresh limit level) source text answers digits
      = some outcome) ∧
    ∀ e, outcome = .error e → e.IsLocated ∨ Excused e := by
  let i := (Run.start (Interpreter.fresh limit level) (Run.ofText source text digits)).1
  obtain ⟨budget, hends⟩ := Run.ends_expecting (runnableAll_parseText text digits) i
    (Run.ofText source text digits) (parseText text digits).fault answers
  have hsound := Run.start_sound (Run.sound_ofText hparser source limit level)
  have hplay : ∀ more, (Run.ofText source text digits).play (budget + more)
      (Interpreter.fresh limit level) answers = _ := Run.playSteps_add hends
  refine ⟨budget, ?_⟩
  unfold runProgram
  simp only [hplay]
  split
  · exact ⟨_, fun _ => rfl, by simp⟩
  · rename_i e hending
    refine ⟨_, fun _ => rfl, ?_⟩
    rintro e' ⟨⟩
    exact Run.playSteps_located hsound hending
  · refine ⟨_, fun _ => rfl, ?_⟩
    rintro e' ⟨⟩
    exact .inl .runtime
  · rename_i hending
    exact absurd hending hends

/-- A run of a text in which nothing can go wrong but the script, apart from some errors that are
excused. -/
structure SafeRun (source : Source) (text : String) (digits : DigitLimit) (limit : Nat)
    (level : Int) (answers : List HostValue) (Excused : RunError → Prop) : Prop where
  /-- No check of the lexer fails: neither of its cursor nor of its stacks. -/
  lexer : ∀ lx, Lexer.Checked.Reached text lx →
    Lexer.Checked.step lx = Lexer.Checked.ofStep lx.step
  /-- Spans are only combined where they can be. -/
  spans : ∀ left right, Span.join left right = left ∨
    Location.combine ⟨source, left⟩ ⟨source, right⟩ = .ok ⟨source, Span.join left right⟩
  /-- The parser only fails with a syntax error. -/
  parser : ParserAccounts text digits Excused
  /-- Arithmetic with divisions and ranges that can fail is arithmetic that cannot. -/
  arithmetic : ∀ i r,
    Run.Reached (Interpreter.fresh limit level) (Run.ofText source text digits) i r →
    ∀ e : Expr, e.evalStrictly i.environment = (e.eval i.environment).mapError .script
  /-- A step only fails with an error about the script. -/
  steps : ∀ i r,
    Run.Reached (Interpreter.fresh limit level) (Run.ofText source text digits) i r →
    ∀ e, (Run.step i r).outcome = .failed e → e.IsLocated ∨ Excused e
  /-- The run comes to an end, with its values or with an error about a place in the source. -/
  ends : ∃ budget outcome,
    (∀ more, runProgram (budget + more) (Interpreter.fresh limit level) source text answers digits
      = some outcome) ∧
    ∀ e, outcome = .error e →
      (e.IsLocated ∧ ∃ d, e.diagnostic? source = some d ∧ d.location.source = source) ∨ Excused e

/-- A run goes wrong only where the parser of its text does. -/
theorem SafeRun.of_parserAccounts (hparser : ParserAccounts text digits Excused) (source : Source)
    (limit : Nat) (level : Int) (answers : List HostValue) :
    SafeRun source text digits limit level answers Excused where
  lexer _ h := Lexer.Checked.step_eq_of_reached h
  spans := Span.join_eq_combine source
  parser := hparser
  arithmetic i r h :=
    Expr.evalStrictly_eq
      (Run.sound_of_reached (Run.sound_ofText hparser source limit level) h).environment
  steps i r h := by
    have hsound := Run.sound_of_reached (Run.sound_ofText hparser source limit level) h
    exact (Run.step_sound hsound).located
  ends := by
    obtain ⟨budget, outcome, hrun, hfails⟩ :=
      runProgram_ends hparser source limit level answers
    refine ⟨budget, outcome, hrun, fun e he => ?_⟩
    exact (hfails e he).imp_left fun hlocated => ⟨hlocated, hlocated.diagnostic source⟩

/-- A run of a text whose integers can all be read is safe. -/
theorem SafeRun.of_admitted (h : Grammar.Admitted digits (tokensOf text).items) (source : Source)
    (limit : Nat) (level : Int) (answers : List HostValue) :
    SafeRun source text digits limit level answers fun _ => False :=
  .of_parserAccounts
    (fun e he => ((parseText_accounts text digits).2 e he).imp_right (h.not_tooLong ·))
    source limit level answers

/-- Every run of a text is safe, with nothing to excuse but integers of the text that have more
digits than can be read. There is nothing to excuse unless the parser comes to such an integer. -/
theorem runProgram_safe (source : Source) (text : String) (digits : DigitLimit) (limit : Nat)
    (level : Int) (answers : List HostValue) :
    SafeRun source text digits limit level answers
        (RunError.TooLong digits (tokensOf text).items) ∧
      (SafeRun source text digits limit level answers (fun _ => False) ↔
        ∀ e, (parseText text digits).fault = some e →
          ¬ e.TooLong digits (tokensOf text).items) := by
  have haccounts := (parseText_accounts text digits).2
  refine ⟨.of_parserAccounts (fun e he => (haccounts e he).imp_right .parse) _ _ _ _,
    fun hsafe e he htoo => ?_, fun hfault => ?_⟩
  · rcases hsafe.parser e he with ⟨error, rfl⟩ | hfalse
    · cases htoo
    · exact hfalse
  · have hmalformed e he := (haccounts e he).resolve_right (hfault e he)
    exact .of_parserAccounts (fun e he => .inl (hmalformed e he)) _ _ _ _

/-- A script that gives out more digits than can be read is not run. -/
theorem runProgram_outputText {cs : List Char} (hcs : Numeral.IsDigits cs) {most : Nat}
    (hmost : digits.exceeded? cs.length = some most) (budget : Nat) (i : Interpreter)
    (source : Source) (answers : List HostValue) :
    runProgram (budget + 1) i source (outputText cs) answers digits
      = some (.error (.parse (.badInteger (.tooLong most cs.length)))) := by
  simp [runProgram, Run.play, Run.start, Run.ofText, Run.ofListing, Run.playSteps, Run.step,
    Run.fetch, parseText_outputText hcs hmost]

/-- Under the standard bound not every run is safe: a run of a script that gives out 4301 ones ends
with an error about no place in its source. -/
theorem runProgram_outputText_ones :
    let text := outputText (List.replicate 4301 '1')
    let e := RunError.parse (.badInteger (.tooLong 4300 4301))
    runProgram 1 (Interpreter.fresh 100 0) (.inline text) text [] .standard = some (.error e) ∧
      e.diagnostic? (.inline text) = none ∧
      ¬ SafeRun (.inline text) text .standard 100 0 [] fun _ => False := by
  have hones : Numeral.IsDigits (List.replicate 4301 '1') := Numeral.isDigits_replicate rfl 4300
  have hmost : DigitLimit.standard.exceeded? (List.replicate 4301 '1').length = some 4300 := by
    rw [List.length_replicate]
    rfl
  have hparse := parseText_outputText hones hmost
  have hrun := runProgram_outputText hones hmost 0 (Interpreter.fresh 100 0)
    (.inline (outputText (List.replicate 4301 '1'))) []
  rw [List.length_replicate] at hparse hrun
  refine ⟨hrun, rfl, fun hsafe => ?_⟩
  rcases hsafe.parser _ (congrArg Listing.fault hparse) with ⟨error, herror⟩ | hfalse
  · cases herror
  · exact hfalse

end DialogScript
