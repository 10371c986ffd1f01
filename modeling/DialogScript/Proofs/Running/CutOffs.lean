import DialogScript.Proofs.Running.Independence

/-!
# Limits are only cut-offs

The limit for the iterations of loops is looked at in one place: a loop whose condition holds once
more than the limit allows is an error. So a step either is that error or comes to the same under
every greater limit (`Run.step_withLimit`), and what is made of steps does too. The items of a run
are the first items of the run under a greater limit, and a run that the limit does not end is the
same under both.

The answers that a host has ready are cut-offs in the same way: a run that does not ask for more
of them leaves those that are put behind them alone (`Run.playSteps_append`).

Both are stated for every budget of steps, and within a budget a run may come to nothing more than
that it was interrupted; so they also speak of runs that never end.
-/

namespace DialogScript

/-! ### Two limits -/

/-- Whether a run failed because a loop had more iterations than the limit allows. -/
def RunError.exceedsLimit : RunError → Bool
  | .runtime ⟨.loopLimit _ _, _⟩ => true
  | _ => false

/-- Whether the limit ended a run. -/
def Ending.exceedsLimit : Ending → Bool
  | .failed e => e.exceedsLimit
  | _ => false

/-- Whether the limit ended a step of a run. -/
def Outcome.exceedsLimit : Outcome → Bool
  | .failed e => e.exceedsLimit
  | _ => false

/-- Whether the limit ended a step of a dialog. -/
def DialogReply.exceedsLimit : DialogReply → Bool
  | .failed _ e => e.exceedsLimit
  | _ => false

/-- An interpreter under another limit. -/
def Interpreter.withLimit (i : Interpreter) (limit : Nat) : Interpreter := { i with limit := limit }

/-- A step of a run as it is under another limit. -/
def RunStep.withLimit (s : RunStep) (limit : Nat) : RunStep :=
  { s with interpreter := s.interpreter.withLimit limit }

/-- A played run as it is under another limit. -/
def Play.withLimit (p : Play) (limit : Nat) : Play :=
  { p with interpreter := p.interpreter.withLimit limit }

/-- A dialog under another limit. -/
def Dialog.withLimit (d : Dialog) (limit : Nat) : Dialog :=
  { d with interpreter := d.interpreter.withLimit limit }

namespace Run

variable {i : Interpreter} {r : Run} {limit : Nat}

/-- A step, and the step under a limit that is not smaller: the same, unless its own limit ended
the first one. -/
structure CutOff (limit : Nat) (s t : RunStep) : Prop where
  le : s.interpreter.limit ≤ limit
  same : s.outcome.exceedsLimit = false → t = s.withLimit limit

private theorem chooseBranch_withLimit (i : Interpreter) (branches : List Stmt) (limit : Nat) :
    chooseBranch (i.withLimit limit) branches
      = ((chooseBranch i branches).1, (chooseBranch i branches).2.withLimit limit) := by
  induction branches generalizing i with
  | nil => rfl
  | cons first rest ih =>
    cases first with
    | branch condition body span | loop condition body span =>
      have henv : (i.withLimit limit).environment = i.environment := rfl
      have hnote : ∀ e, (i.withLimit limit).note e = (i.note e).withLimit limit := fun _ => rfl
      rw [chooseBranch, chooseBranch, henv]
      rcases condition.evalCondition i.environment with e | _ | _
      · rfl
      · dsimp only
        rw [hnote]
        exact ih _
      · rfl
    | _ => rfl

/-- The only place where the limit is looked at. -/
theorem loopStep_withLimit (h : i.limit ≤ limit) (condition : Expr) (body : Stmt) (span : Span)
    (hwithin : (loopStep i r condition body span).outcome.exceedsLimit = false) :
    loopStep (i.withLimit limit) r condition body span
      = (loopStep i r condition body span).withLimit limit := by
  have henv : (i.withLimit limit).environment = i.environment := rfl
  have hlimit : (i.withLimit limit).limit = limit := rfl
  rw [loopStep] at hwithin ⊢
  rw [loopStep, henv, hlimit]
  generalize condition.evalCondition i.environment = holds at hwithin ⊢
  rcases holds with e | _ | _
  · rfl
  · rfl
  · -- What the smaller limit lets pass, the greater one does.
    dsimp only at hwithin ⊢
    have hle : ¬i.limit < ((r.guards.find? span.line).getD ⟨span, 0⟩).iterations + 1 := by
      intro hover
      rw [if_pos hover] at hwithin
      cases hwithin
    rw [if_neg hle, if_neg (by omega)]
    rfl

private theorem execute_withLimit (h : i.limit ≤ limit) (s : Stmt)
    (hwithin : (execute i r s).outcome.exceedsLimit = false) :
    execute (i.withLimit limit) r s = (execute i r s).withLimit limit := by
  have henv : (i.withLimit limit).environment = i.environment := rfl
  cases s with
  | output value span | assign name value span =>
    rw [execute, execute, henv]
    cases value.eval i.environment <;> rfl
  | loop condition body span => exact loopStep_withLimit h condition body span hwithin
  | choice first others otherwise span =>
    rw [execute, execute, chooseBranch_withLimit]
    rcases chooseBranch i (first :: others) with ⟨e | chosen, j⟩
    · rfl
    · dsimp only
      cases chosen.getD otherwise <;> rfl
  | input name form span =>
    rw [execute, execute]
    cases InputType.ofJson? form <;> rfl
  | block | branch | expression | program | absent => rfl

/-- A step that the limit does not end is the same under every greater limit. -/
theorem step_withLimit (h : i.limit ≤ limit) (r : Run) :
    CutOff limit (step i r) (step (i.withLimit limit) r) := by
  refine ⟨(limit_step i r).trans_le h, fun hwithin => ?_⟩
  unfold step at hwithin ⊢
  split
  · rfl
  · unfold takeAnswer
    rcases r.request with _ | request
    · rfl
    · dsimp only
      cases request.value <;> rfl
  · rcases hfetch : r.fetch with e | _ | ⟨s, left⟩
    · rfl
    · rfl
    · rw [hfetch] at hwithin
      refine execute_withLimit h s ?_
      split at hwithin
      · contradiction
      · contradiction
      · exact hwithin

/-! ### Runs under two limits -/

private theorem advance_withLimit (h : i.limit ≤ limit) (budget : Nat) (r : Run) :
    CutOff limit (advance budget i r) (advance budget (i.withLimit limit) r) := by
  induction budget generalizing i r with
  | zero => exact ⟨h, fun _ => rfl⟩
  | succ budget ih =>
    obtain ⟨hle, hsame⟩ := step_withLimit h r
    rw [advance, advance]
    rcases hstep : step i r with ⟨outcome, j, after⟩
    rw [hstep] at hle hsame
    cases outcome with
    | quiet =>
      rw [hsame rfl]
      exact ih hle after
    | item | done =>
      rw [hsame rfl]
      exact ⟨hle, fun _ => rfl⟩
    | failed e =>
      refine ⟨hle, fun hwithin => ?_⟩
      rw [hsame hwithin]
      rfl

private theorem start_withLimit (i : Interpreter) (r : Run) (limit : Nat) :
    start (i.withLimit limit) r = ((start i r).1.withLimit limit, (start i r).2) := by
  unfold start
  split <;> rfl

private theorem close_withLimit (i : Interpreter) (r : Run) (limit : Nat) :
    close (i.withLimit limit) r = ((close i r).1.withLimit limit, (close i r).2) := by
  unfold close
  split <;> rfl

private theorem limit_start (i : Interpreter) (r : Run) : (start i r).1.limit = i.limit := by
  obtain ⟨trace, htrace⟩ := start_interpreter i r
  rw [htrace]

private theorem limit_close (i : Interpreter) (r : Run) : (close i r).1.limit = i.limit := by
  obtain ⟨trace, htrace⟩ := close_eq i r
  rw [htrace]

/-- What a run comes to next is the same under every greater limit, unless the limit ends it. -/
theorem next_withLimit (h : i.limit ≤ limit) (budget : Nat) (r : Run) :
    CutOff limit (next budget i r) (next budget (i.withLimit limit) r) := by
  obtain ⟨hle, hsame⟩ := advance_withLimit ((limit_start i r).trans_le h) budget (start i r).2
  rw [next, next, start_withLimit]
  dsimp only
  rcases hadvance : advance budget (start i r).1 (start i r).2 with ⟨outcome, j, after⟩
  rw [hadvance] at hle hsame
  cases outcome with
  | quiet | item =>
    rw [hsame rfl]
    exact ⟨hle, fun _ => rfl⟩
  | done =>
    rw [hsame rfl]
    refine ⟨(limit_close j after).trans_le hle, fun _ => ?_⟩
    simp only [RunStep.withLimit, close_withLimit]
  | failed e =>
    refine ⟨(limit_close j after).trans_le hle, fun hwithin => ?_⟩
    rw [hsame hwithin]
    simp only [RunStep.withLimit, close_withLimit]

/-- A played run, and the run played under a limit that is not smaller: they begin with the same
items, and are the same unless its own limit ended the first one. -/
structure PlayCutOff (limit : Nat) (p q : Play) : Prop where
  items : p.items <+: q.items
  same : p.ending.exceedsLimit = false → q = p.withLimit limit

/-- A played run is cut off nowhere by its own limit. -/
theorem PlayCutOff.refl (p : Play) : PlayCutOff limit p (p.withLimit limit) :=
  ⟨List.prefix_rfl, fun _ => rfl⟩

/-- One more item in front of a run that is cut off. -/
theorem PlayCutOff.prepend {p q : Play} (h : PlayCutOff limit p q) (item : Item) :
    PlayCutOff limit (p.prepend item) (q.prepend item) := by
  refine ⟨List.cons_prefix_cons.mpr ⟨rfl, h.items⟩, fun hwithin => ?_⟩
  rw [h.same hwithin]
  rfl

private theorem playSteps_withLimit (h : i.limit ≤ limit) (budget : Nat) (r : Run)
    (answers : List HostValue) :
    PlayCutOff limit (playSteps budget i r answers)
      (playSteps budget (i.withLimit limit) r answers) := by
  induction budget generalizing i r answers with
  | zero => exact .refl _
  | succ budget ih =>
    obtain ⟨hle, hsame⟩ := step_withLimit h r
    rw [playSteps, playSteps]
    rcases hstep : step i r with ⟨outcome, j, after⟩
    rw [hstep] at hle hsame
    cases outcome with
    | quiet =>
      rw [hsame rfl]
      exact ih hle after answers
    | done =>
      rw [hsame rfl]
      simp only [RunStep.withLimit, close_withLimit]
      exact .refl _
    | failed e =>
      -- If it was the limit, the other run goes on, behind the items that both have.
      refine ⟨List.nil_prefix, fun hwithin => ?_⟩
      rw [hsame hwithin]
      simp only [RunStep.withLimit, close_withLimit]
      rfl
    | item item =>
      rw [hsame rfl]
      cases item with
      | value v => exact (ih hle after answers).prepend _
      | request request =>
        cases answers with
        | nil => exact .refl _
        | cons answer rest =>
          simp only [RunStep.withLimit]
          cases after.give request answer with
          | error e => exact .refl _
          | ok answered => exact (ih hle answered rest).prepend _

private theorem play_withLimit (h : i.limit ≤ limit) (budget : Nat) (r : Run)
    (answers : List HostValue) :
    PlayCutOff limit (r.play budget i answers) (r.play budget (i.withLimit limit) answers) := by
  rw [play, play, start_withLimit]
  exact playSteps_withLimit ((limit_start i r).trans_le h) budget _ answers

end Run

/-! ### Dialogs under two limits -/

namespace Dialog

variable {d : Dialog} {limit : Nat}

private theorem closeRun_withLimit (d : Dialog) (name : String) (limit : Nat) :
    (d.withLimit limit).closeRun name = (d.closeRun name).withLimit limit := by
  have hrun : (d.withLimit limit).run? name = d.run? name := rfl
  have hinterpreter : (d.withLimit limit).interpreter = d.interpreter.withLimit limit := rfl
  unfold closeRun
  rw [hrun, hinterpreter]
  cases d.run? name with
  | none => rfl
  | some r =>
    dsimp only
    rw [Run.close_withLimit]
    rfl

private theorem limit_closeRun (d : Dialog) (name : String) :
    (d.closeRun name).interpreter.limit = d.interpreter.limit := by
  obtain ⟨trace, htrace⟩ := closeRun_interpreter d name
  rw [htrace]

/-- A reply and the dialog after it, and both under a limit that is not smaller: the same, unless
the limit ended the step. -/
structure CutOff (limit : Nat) (s t : DialogReply × Dialog) : Prop where
  le : s.2.interpreter.limit ≤ limit
  same : s.1.exceedsLimit = false → t = (s.1, s.2.withLimit limit)

private theorem perform_withLimit (h : d.interpreter.limit ≤ limit) (budget : Nat)
    (st : DialogStep) :
    CutOff limit (d.perform budget st) ((d.withLimit limit).perform budget st) := by
  have hrun : ∀ name, (d.withLimit limit).run? name = d.run? name := fun _ => rfl
  have hinterpreter : (d.withLimit limit).interpreter = d.interpreter.withLimit limit := rfl
  cases st with
  | start name script =>
    refine ⟨(limit_closeRun d name).trans_le h, fun _ => ?_⟩
    rw [perform, perform, closeRun_withLimit]
    rfl
  | close name =>
    refine ⟨(limit_closeRun d name).trans_le h, fun _ => ?_⟩
    rw [perform, perform, closeRun_withLimit]
  | next name =>
    rw [perform, perform, advanceRun, advanceRun, hrun, hinterpreter]
    cases d.run? name with
    | none => exact ⟨h, fun _ => rfl⟩
    | some r =>
      obtain ⟨hle, hsame⟩ := Run.next_withLimit h budget r
      dsimp only
      rcases hnext : Run.next budget d.interpreter r with ⟨outcome, j, after⟩
      rw [hnext] at hle hsame
      cases outcome with
      | quiet | item | done =>
        rw [hsame rfl]
        exact ⟨hle, fun _ => rfl⟩
      | failed e =>
        refine ⟨hle, fun hwithin => ?_⟩
        rw [hsame hwithin]
        rfl
  | give name value =>
    -- A request takes or refuses a value without the interpreter.
    rw [perform, perform, giveRun, giveRun, hrun]
    refine ⟨?_, fun _ => ?_⟩
    · split
      · exact h
      · split
        · exact h
        · split <;> exact h
    · cases d.run? name with
      | none => rfl
      | some r =>
        dsimp only
        cases r.request with
        | none => rfl
        | some request =>
          dsimp only
          cases r.give request value <;> rfl

/-- As long as the limit ends no step, a dialog replies as it does under a greater limit. -/
theorem performAll_withLimit (h : d.interpreter.limit ≤ limit) (budget : Nat)
    (steps : List DialogStep)
    (hwithin : ∀ reply ∈ (d.performAll budget steps).1, reply.exceedsLimit = false) :
    (d.withLimit limit).performAll budget steps
      = ((d.performAll budget steps).1, (d.performAll budget steps).2.withLimit limit) := by
  induction steps generalizing d with
  | nil => rfl
  | cons st rest ih =>
    rw [performAll_cons] at hwithin ⊢
    rw [performAll_cons]
    obtain ⟨hfirst, hrest⟩ := List.forall_mem_cons.mp hwithin
    obtain ⟨hle, hsame⟩ := perform_withLimit h budget st
    rw [hsame hfirst, ih hle hrest]

end Dialog

/-! ### More answers -/

/-- Whether a run ended at a request that there was no answer for. -/
def Ending.lacksAnswer : Ending → Bool
  | .unanswered _ => true
  | _ => false

/-- A played run as it is with more answers behind the ones that it had. -/
def Play.withAnswers (p : Play) (more : List HostValue) : Play :=
  { p with answers := p.answers ++ more }

/-- A run that never lacks an answer leaves further ones unused. -/
theorem Run.playSteps_append {budget : Nat} {i : Interpreter} {r : Run} {answers : List HostValue}
    (h : (playSteps budget i r answers).ending.lacksAnswer = false) (more : List HostValue) :
    playSteps budget i r (answers ++ more) = (playSteps budget i r answers).withAnswers more := by
  induction budget generalizing i r answers with
  | zero => rfl
  | succ budget ih =>
    rw [playSteps] at h ⊢
    rw [playSteps]
    rcases hstep : step i r with ⟨outcome, j, after⟩
    rw [hstep] at h
    cases outcome with
    | quiet => exact ih h
    | done | failed => rfl
    | item item =>
      cases item with
      | value v => exact congrArg (Play.prepend _) (ih h)
      | request request =>
        cases answers with
        | nil => cases h
        | cons answer rest =>
          dsimp only [List.cons_append] at h ⊢
          cases hgive : after.give request answer with
          | error e => rfl
          | ok answered =>
            rw [hgive] at h
            exact congrArg (Play.prepend _) (ih h)

/-- Whether a script was ended because there was no answer left for a request. -/
def lacksAnswer : Option (Except RunError (List Value)) → Bool
  | some (.error (.runtime ⟨.inputsExhausted _, _⟩)) => true
  | _ => false

private theorem runProgram_append {budget : Nat} {i : Interpreter} {source : Source}
    {script : String}
    {answers : List HostValue} {digits : DigitLimit}
    (h : lacksAnswer (runProgram budget i source script answers digits) = false)
    (more : List HostValue) :
    runProgram budget i source script (answers ++ more) digits
      = runProgram budget i source script answers digits := by
  have hends :
      ((Run.ofText source script digits).play budget i answers).ending.lacksAnswer = false := by
    rw [runProgram] at h
    cases hending : ((Run.ofText source script digits).play budget i answers).ending with
    | unanswered request =>
      rw [hending] at h
      cases h
    | completed | failed | interrupted => rfl
  have hplay : (Run.ofText source script digits).play budget i (answers ++ more)
      = ((Run.ofText source script digits).play budget i answers).withAnswers more :=
    Run.playSteps_append hends more
  rw [runProgram, runProgram, hplay]
  rfl

/-! ### Cut-offs -/

/-- The limit and the answers are only cut-offs. Under a greater limit a run of any statements
begins with the same items, and if the limit does not end it, it has the same items, the same
ending and the same variables, and leaves the same answers; a dialog gives the same replies until
the limit ends one of its runs. A script that does not end for want of an answer ends in the same
way, or goes on in the same way, if there are more answers behind those it has. -/
theorem cutOff_of_limits_and_answers :
    (∀ (i : Interpreter) (limit : Nat), i.limit ≤ limit →
      (∀ budget source statements answers,
        let p := (Run.ofListing source statements).play budget i answers
        let q := (Run.ofListing source statements).play budget (i.withLimit limit) answers
        p.items <+: q.items ∧ (p.ending.exceedsLimit = false → q = p.withLimit limit)) ∧
      ∀ budget runs digits steps,
        let d : Dialog := ⟨i, runs, digits⟩
        (∀ reply ∈ (d.performAll budget steps).1, reply.exceedsLimit = false) →
          (d.withLimit limit).performAll budget steps
            = ((d.performAll budget steps).1, (d.performAll budget steps).2.withLimit limit)) ∧
    ∀ budget i source script answers digits more,
      lacksAnswer (runProgram budget i source script answers digits) = false →
        runProgram budget i source script (answers ++ more) digits
          = runProgram budget i source script answers digits := by
  refine ⟨fun i limit h => ⟨fun budget source statements answers => ?_, ?_⟩, ?_⟩
  · obtain ⟨hitems, hsame⟩ := Run.play_withLimit h budget (.ofListing source statements) answers
    exact ⟨hitems, hsame⟩
  · intro budget runs digits steps d hwithin
    exact Dialog.performAll_withLimit h budget steps hwithin
  · intro budget i source script answers digits more h
    exact runProgram_append h more

/-- A loop that counts to two: a limit of one iteration ends it after its first output, a limit of
two does not, nor does any greater one. -/
def countToTwo : Listing Stmt ParseError :=
  let span := Span.point 1 1
  let x : Expr := .variable "x" span
  ⟨[.assign "x" (.integer 0 span) span,
    .loop (.binary .less x (.integer 2 span) span)
      (.block [.output x span, .assign "x" (.binary .add x (.integer 1 span) span) span] span)
      span], none⟩

theorem cutOff_countToTwo :
    let run := Run.ofListing .empty countToTwo
    let p := run.play 20 (.fresh 1 0) []
    let q := run.play 20 (.fresh 2 0) []
    p.ending.exceedsLimit = true ∧ p.items = [.value (.integer 0)] ∧
      p.items <+: (run.play 20 (.fresh 7 0) []).items ∧
      q.ending.exceedsLimit = false ∧ q.items = [.value (.integer 0), .value (.integer 1)] ∧
      run.play 20 (.fresh 7 0) [] = q.withLimit 7 ∧
      lacksAnswer (runProgram 9 (.fresh 1 0) .empty ">> x\n<< x\n" [.integer 5] .standard) = false ∧
      runProgram 9 (.fresh 1 0) .empty ">> x\n<< x\n" [.integer 5, .integer 6] .standard
        = runProgram 9 (.fresh 1 0) .empty ">> x\n<< x\n" [.integer 5] .standard := by
  intro run p q
  have hends : q.ending.exceedsLimit = false := by decide +kernel
  have htokens : tokensOf ">> x\n<< x\n"
      = ⟨[⟨.sign .input, ">>", 1, 1, 3⟩, ⟨.name, "x", 1, 4, 5⟩, ⟨.lineEnd, "\n", 1, 5, 6⟩,
        ⟨.sign .output, "<<", 2, 1, 3⟩, ⟨.name, "x", 2, 4, 5⟩, ⟨.lineEnd, "\n", 2, 5, 6⟩,
        ⟨.sourceEnd, "", 3, 1, 2⟩], none⟩ := by decide +kernel
  have hparsed : parseText ">> x\n<< x\n" .standard = ⟨_, none⟩ :=
    parseText_of_grammar htokens (.statements (.cons (.input rfl rfl rfl)
      (.cons (.output rfl (.whole (.variable rfl)) rfl) .nil)) rfl)
  have hlacks :
      lacksAnswer (runProgram 9 (.fresh 1 0) .empty ">> x\n<< x\n" [.integer 5] .standard)
        = false := by
    rw [runProgram, Run.ofText, hparsed]
    rfl
  obtain ⟨hlimits, hanswers⟩ := cutOff_of_limits_and_answers
  have hfirst := ((hlimits (.fresh 1 0) 7 (by decide)).1 20 .empty countToTwo []).1
  have hsecond := ((hlimits (.fresh 2 0) 7 (by decide)).1 20 .empty countToTwo []).2 hends
  exact ⟨by decide +kernel, by decide +kernel, hfirst, hends, by decide +kernel, hsecond, hlacks,
    hanswers _ _ _ _ [.integer 5] _ [.integer 6] hlacks⟩

end DialogScript
