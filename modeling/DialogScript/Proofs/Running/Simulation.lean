import DialogScript.Proofs.Running.Meaning

/-!
# Runs do what statements mean

A run keeps its statements on a stack and the iterations of its loops in guards that are known by
the lines of the loops. `behaves_of_runnable` says that a statement on top of the stack has the
effect that it means, whatever is below it, and leaves the stack below it and the guards as they
were. The only thing that is asked of the statement is that no loop stands on the line of another
loop around it (`Runnable`): guards of loops that are not going on do not exist, so loops one
after the other may share a line.
-/

namespace DialogScript

namespace Stmt

mutual

/-- The lines of the loops in a statement. -/
def loopLines : Stmt → List Int
  | .loop _ body span => span.line :: loopLines body
  | .block body _ => loopLinesAll body
  | .choice first others otherwise _ =>
    loopLines first ++ loopLinesAll others ++ loopLines otherwise
  | .branch _ body _ => loopLines body
  | _ => []

/-- The lines of the loops in statements. -/
def loopLinesAll : List Stmt → List Int
  | [] => []
  | s :: rest => loopLines s ++ loopLinesAll rest

end

mutual

/-- A statement with each kind of node in its place, in which no loop is on the line of a loop
around it. -/
inductive Runnable : Stmt → Prop
  | assign {name : String} {value : Expr} {span : Span} : Runnable (.assign name value span)
  | output {value : Expr} {span : Span} : Runnable (.output value span)
  | input {name : String} {form : Json} {span : Span} : Runnable (.input name form span)
  | block {body : List Stmt} {span : Span} (h : RunnableAll body) : Runnable (.block body span)
  | loop {condition : Expr} {body : Stmt} {span : Span} (h : Runnable body)
      (hline : span.line ∉ loopLines body) : Runnable (.loop condition body span)
  | choice {first otherwise : Stmt} {others : List Stmt} {span : Span}
      (hbranches : Branches (first :: others)) (hotherwise : Runnable otherwise) :
      Runnable (.choice first others otherwise span)
  | choiceOrNothing {first : Stmt} {others : List Stmt} {span : Span}
      (hbranches : Branches (first :: others)) : Runnable (.choice first others .absent span)

/-- Statements that can be run. -/
inductive RunnableAll : List Stmt → Prop
  | nil : RunnableAll []
  | cons {s : Stmt} {rest : List Stmt} (h : Runnable s) (hrest : RunnableAll rest) :
      RunnableAll (s :: rest)

/-- Branches with bodies that can be run. -/
inductive Branches : List Stmt → Prop
  | nil : Branches []
  | cons {condition : Expr} {body : Stmt} {span : Span} {rest : List Stmt} (h : Runnable body)
      (hrest : Branches rest) : Branches (.branch condition body span :: rest)

end

end Stmt

open Stmt

/-! ### Playing to an effect -/

namespace Play

/-- A played run with items put in front. -/
def prependAll (items : List Item) (p : Play) : Play := { p with items := items ++ p.items }

private theorem prependAll_append (xs ys : List Item) (p : Play) :
    p.prependAll (xs ++ ys) = (p.prependAll ys).prependAll xs := by
  simp [prependAll]

end Play

namespace Run

/-- A run that goes on with the given statements and guards. -/
def going (r : Run) (pending : List Stmt) (guards : LoopGuards) : Run :=
  { r with stage := .active, pending := pending, guards := guards }

/-- A run with another request. -/
def asking (r : Run) (request : Option Request) : Run := { r with request := request }

/-- Playing a run has an effect: the run ends with it, or it goes on as another run that may hold
another request. -/
def Performs (i : Interpreter) (r : Run) (answers : List HostValue) (effect : Effect)
    (after : Run) : Prop :=
  ∃ steps last, last.environment = effect.environment ∧ last.limit = i.limit ∧
    match effect.ending with
    | some ending =>
      ∀ more, playSteps (steps + more) i r answers = ⟨effect.items, ending, last, effect.answers⟩
    | none =>
      ∃ request, ∀ more, playSteps (steps + more) i r answers =
        (playSteps more last (after.asking request) effect.answers).prependAll effect.items

variable {i j : Interpreter} {r after middle : Run} {answers : List HostValue} {effect : Effect}

/-- A quiet step before an effect. -/
theorem Performs.quiet {r' : Run} (hstep : step i r = ⟨.quiet, j, r'⟩) (hlimit : j.limit = i.limit)
    (h : Performs j r' answers effect after) : Performs i r answers effect after := by
  obtain ⟨steps, last, henv, hlast, hplay⟩ := h
  have hnext : ∀ more, playSteps (steps + 1 + more) i r answers
      = playSteps (steps + more) j r' answers := by
    intro more
    rw [Nat.add_right_comm, playSteps, hstep]
  refine ⟨steps + 1, last, henv, hlast.trans hlimit, ?_⟩
  split at hplay
  · exact fun more => (hnext more).trans (hplay more)
  · obtain ⟨request, hplay⟩ := hplay
    exact ⟨request, fun more => (hnext more).trans (hplay more)⟩

/-- A step that fails. -/
theorem Performs.failed {r' : Run} {e : RunError} (hstep : step i r = ⟨.failed e, j, r'⟩)
    (hlimit : j.limit = i.limit) (henv : j.environment = i.environment) :
    Performs i r answers (Meaning.fail e i.environment answers) after := by
  have hclose : (close j r').1.environment = j.environment ∧ (close j r').1.limit = j.limit := by
    unfold close
    split <;> exact ⟨rfl, rfl⟩
  refine ⟨1, (close j r').1, hclose.1.trans henv, hclose.2.trans hlimit, fun more => ?_⟩
  rw [Nat.add_comm, playSteps, hstep]
  rfl

/-- Nothing is left to do. -/
theorem performs_skip (i : Interpreter) (r : Run) (answers : List HostValue) :
    Performs i r answers (Meaning.skip i.environment answers) r :=
  ⟨0, i, rfl, rfl, r.request, fun more => by rw [Nat.zero_add]; rfl⟩

/-- One effect after the other. -/
theorem Performs.andThen {first second : Meaning}
    (h : Performs i r answers (first i.environment answers) middle)
    (hnext : ∀ j request answers, j.limit = i.limit →
      Performs j (middle.asking request) answers (second j.environment answers) after) :
    Performs i r answers (first.andThen second i.environment answers) after := by
  obtain ⟨steps, last, henv, hlimit, hplay⟩ := h
  unfold Meaning.andThen
  dsimp only
  split
  · -- The run ended in the first part, and no number of further steps changes what it came to.
    rename_i ending hending
    rw [hending] at hplay
    refine ⟨steps, last, henv, hlimit, ?_⟩
    rw [hending]
    exact hplay
  · -- The second part starts with the variables, answers and request that the first one left.
    rename_i hending
    rw [hending] at hplay
    obtain ⟨request, hplay⟩ := hplay
    obtain ⟨steps', last', henv', hlimit', hplay'⟩ :=
      hnext last request (first i.environment answers).answers hlimit
    rw [henv] at henv' hplay'
    have hboth : ∀ more, playSteps (steps + steps' + more) i r answers
        = (playSteps (steps' + more) last (middle.asking request)
            (first i.environment answers).answers).prependAll
              (first i.environment answers).items := by
      intro more
      rw [Nat.add_assoc]
      exact hplay (steps' + more)
    refine ⟨steps + steps', last', henv', hlimit'.trans hlimit, ?_⟩
    split at hplay'
    · rename_i ending hending'
      rw [hending']
      exact fun more => (hboth more).trans (congrArg _ (hplay' more))
    · rename_i hending'
      rw [hending']
      obtain ⟨request', hplay'⟩ := hplay'
      refine ⟨request', fun more => (hboth more).trans ?_⟩
      rw [hplay' more, Play.prependAll_append]

/-! ### Guards -/

/-- No loop on one of the lines is going on. -/
def Free (guards : LoopGuards) (lines : List Int) : Prop := ∀ entry ∈ guards, entry.1 ∉ lines

theorem Free.mono {guards : LoopGuards} {lines lines' : List Int} (h : Free guards lines)
    (hsub : ∀ line ∈ lines', line ∈ lines) : Free guards lines' :=
  fun entry hentry hline => h entry hentry (hsub _ hline)

/-- The guards after some iterations of a loop: before the first one the loop has none. -/
def guardsAt (guards : LoopGuards) (span : Span) : Nat → LoopGuards
  | 0 => guards
  | count + 1 => (span.line, ⟨span, count + 1⟩) :: guards

variable {guards : LoopGuards} {span : Span}

private theorem forget_of_free (h : Free guards [span.line]) :
    guards.forget span.line = guards := by
  refine List.filter_eq_self.mpr fun entry hentry => ?_
  simpa using h entry hentry

private theorem find?_guardsAt (h : Free guards [span.line]) (count : Nat) :
    ((guardsAt guards span count).find? span.line).getD ⟨span, 0⟩ = ⟨span, count⟩ := by
  cases count with
  | zero =>
    have hnone : List.find? (fun entry => entry.1 == span.line) guards = none :=
      List.find?_eq_none.mpr fun entry hentry => by simpa using h entry hentry
    rw [guardsAt, LoopGuards.find?, hnone]
    rfl
  | succ count => simp [guardsAt, LoopGuards.find?]

theorem forget_guardsAt (h : Free guards [span.line]) (count : Nat) :
    (guardsAt guards span count).forget span.line = guards := by
  cases count with
  | zero => exact forget_of_free h
  | succ count =>
    have hrest := forget_of_free h
    unfold LoopGuards.forget at hrest ⊢
    rw [guardsAt, List.filter_cons_of_neg (by simp), hrest]

private theorem set_guardsAt (h : Free guards [span.line]) (count : Nat) :
    (guardsAt guards span count).set span.line ⟨span, count + 1⟩
      = guardsAt guards span (count + 1) := by
  rw [LoopGuards.set, forget_guardsAt h, guardsAt]

theorem free_guardsAt {lines : List Int} (h : Free guards lines) (hline : span.line ∉ lines)
    (count : Nat) : Free (guardsAt guards span count) lines := by
  cases count with
  | zero => exact h
  | succ count =>
    intro entry hentry
    rcases List.mem_cons.mp hentry with rfl | hentry
    · exact hline
    · exact h entry hentry

/-! ### Single statements -/

variable {rest : List Stmt}

private theorem step_going (i : Interpreter) (r : Run) (s : Stmt) (rest : List Stmt)
    (guards : LoopGuards) :
    step i (r.going (s :: rest) guards) = execute i (r.going rest guards) s := rfl

private theorem performs_output (value : Expr) (span : Span) :
    Performs i (r.going (.output value span :: rest) guards) answers
      (Meaning.output value i.environment answers) (r.going rest guards) := by
  have hstep := step_going i r (.output value span) rest guards
  simp only [execute] at hstep
  unfold Meaning.output
  cases hvalue : value.eval i.environment with
  | error e =>
    rw [hvalue] at hstep
    exact .failed hstep rfl rfl
  | ok v =>
    rw [hvalue] at hstep
    refine ⟨1, i.note (.output span.line v), rfl, rfl, r.request, fun more => ?_⟩
    rw [Nat.add_comm, playSteps, hstep]
    rfl

private theorem performs_assign (name : String) (value : Expr) (span : Span) :
    Performs i (r.going (.assign name value span :: rest) guards) answers
      (Meaning.assign name value i.environment answers) (r.going rest guards) := by
  have hstep := step_going i r (.assign name value span) rest guards
  simp only [execute] at hstep
  unfold Meaning.assign
  cases hvalue : value.eval i.environment with
  | error e =>
    rw [hvalue] at hstep
    exact .failed hstep rfl rfl
  | ok v =>
    rw [hvalue] at hstep
    exact .quiet hstep rfl (performs_skip _ _ answers)

/-- A request that took a value has it, under its own name. -/
theorem give_eq_ok {request filled : Request} {answer : HostValue}
    (h : request.give answer = .ok filled) :
    filled.name = request.name ∧ ∃ v, filled.value = .ok v := by
  unfold Request.give at h
  split at h
  · cases h
  · split at h
    · cases h
    · rename_i v _
      split at h
      · obtain rfl := Except.ok.inj h
        exact ⟨rfl, v, rfl⟩
      · cases h

private theorem performs_ask (name : String) (type : InputType) (form : Json) (span : Span)
    (hform : InputType.ofJson? form = some type) :
    Performs i (r.going (.input name form span :: rest) guards) answers
      (Meaning.ask name type span i.environment answers) (r.going rest guards) := by
  have hstep := step_going i r (.input name form span) rest guards
  simp only [execute, hform] at hstep
  cases answers with
  | nil =>
    refine ⟨1, i.note (.request span.line name type), rfl, rfl, fun more => ?_⟩
    rw [Nat.add_comm, playSteps, hstep]
    rfl
  | cons answer answers =>
    cases hgive : (Request.fresh name type span).give answer with
    | error e =>
      have heffect : Meaning.ask name type span i.environment (answer :: answers)
          = ⟨[.request (.fresh name type span)], some (.failed (.runtime e)), i.environment,
            answers⟩ := by
        simp only [Meaning.ask, hgive, Except.bind]
      rw [heffect]
      refine ⟨1, i.note (.request span.line name type), rfl, rfl, fun more => ?_⟩
      rw [Nat.add_comm, playSteps, hstep]
      simp only [give, hgive, bind, Except.bind]
    | ok filled =>
      obtain ⟨hname, v, hvalue⟩ := give_eq_ok hgive
      have heffect : Meaning.ask name type span i.environment (answer :: answers)
          = ⟨[.request (.fresh name type span)], none, i.environment.set name v, answers⟩ := by
        simp only [Meaning.ask, hgive, Except.bind, hvalue]
      rw [heffect]
      -- One step hands out the request, the next one takes its value.
      refine ⟨2, ((i.note (.request span.line name type)).assign filled.name v).note
        (.assignment filled.span.line filled.name v), by rw [hname]; rfl, rfl, some filled,
        fun more => ?_⟩
      rw [Nat.add_comm, playSteps, hstep]
      simp only [give, hgive, bind, Except.bind, pure, Except.pure]
      rw [playSteps]
      simp only [step, takeAnswer, hvalue]
      rfl

/-! ### Loops and choices -/

/-- An iteration of a loop whose condition holds, or the failure of the loop. -/
theorem loopStep_of_holds {condition : Expr} {body : Stmt} {count : Nat}
    (hcondition : condition.evalCondition i.environment = .ok true)
    (hguard : Free guards [span.line]) :
    loopStep i (r.going rest (guardsAt guards span count)) condition body span =
      if count < i.limit then
        ⟨.quiet, i.note (.iteration span.line (count + 1)),
          r.going (body :: .loop condition body span :: rest) (guardsAt guards span (count + 1))⟩
      else
        ⟨.failed (.runtime ⟨.loopLimit i.limit span.line, span⟩), i,
          r.going rest (guardsAt guards span (count + 1))⟩ := by
  have hguards : (r.going rest (guardsAt guards span count)).guards
      = guardsAt guards span count := rfl
  simp only [loopStep, hcondition, hguards, find?_guardsAt hguard, set_guardsAt hguard]
  by_cases hless : count < i.limit
  · rw [if_neg (by omega), if_pos hless]
    rfl
  · rw [if_pos (by omega), if_neg hless]
    rfl

/-- Whatever is below a statement, it does what it means and leaves the rest as it was. -/
def Behaves (limit : Nat) (s : Stmt) : Prop :=
  ∀ (i : Interpreter) (r : Run) (rest : List Stmt) (guards : LoopGuards)
    (answers : List HostValue), i.limit = limit → Free guards (loopLines s) →
    Performs i (r.going (s :: rest) guards) answers (s.meaning limit i.environment answers)
      (r.going rest guards)

/-- A loop after some of its iterations. -/
theorem performs_loop {limit : Nat} {condition : Expr} {body : Stmt}
    (hbody : Behaves limit body) (hline : span.line ∉ loopLines body)
    (hfree : Free guards (span.line :: loopLines body)) (count : Nat) (i : Interpreter) (r : Run)
    (answers : List HostValue) (hlimit : i.limit = limit) :
    Performs i (r.going (.loop condition body span :: rest) (guardsAt guards span count)) answers
      (Meaning.loop limit condition span (body.meaning limit) count i.environment answers)
      (r.going rest guards) := by
  have hguard : Free guards [span.line] := hfree.mono (by simp)
  have hinner : Free guards (loopLines body) := hfree.mono fun line h => by simp [h]
  have hstep := step_going i r (.loop condition body span) rest (guardsAt guards span count)
  simp only [execute] at hstep
  rw [Meaning.loop, Meaning.branch]
  cases hcondition : condition.evalCondition i.environment with
  | error e =>
    simp only [loopStep, hcondition] at hstep
    exact .failed hstep rfl rfl
  | ok holds =>
    cases holds with
    | false =>
      -- The loop forgets its guard, so the guards are those from before its first iteration.
      simp only [loopStep, hcondition] at hstep
      refine .quiet hstep rfl ?_
      have hleft : { r.going rest (guardsAt guards span count) with
          guards := (guardsAt guards span count).forget span.line } = r.going rest guards := by
        rw [forget_guardsAt hguard]
        rfl
      have hskip := performs_skip (i.note (.loopEnd span.line)) (r.going rest guards) answers
      exact hleft ▸ hskip
    | true =>
      rw [loopStep_of_holds hcondition hguard, hlimit] at hstep
      dsimp only
      split
      · rename_i hless
        rw [if_pos hless] at hstep
        refine .quiet hstep rfl ?_
        -- The body runs above the loop, under a guard that none of the loops in it shares.
        have hfirst := hbody (i.note (.iteration span.line (count + 1))) r
          (.loop condition body span :: rest) (guardsAt guards span (count + 1)) answers hlimit
          (free_guardsAt hinner hline (count + 1))
        refine Performs.andThen (i := i.note (.iteration span.line (count + 1))) hfirst ?_
        intro j request answers' hj
        exact performs_loop hbody hline hfree (count + 1) j (r.asking request) answers'
          (hj.trans hlimit)
      · rename_i hless
        rw [if_neg hless] at hstep
        exact .failed hstep rfl rfl
termination_by limit - count

/-- The branch that is chosen is the one that the meaning of the branches takes. -/
theorem chooseBranch_spec {branches : List Stmt} (h : Branches branches) (limit : Nat)
    (i : Interpreter) (otherwise : Meaning) (answers : List HostValue) :
    (chooseBranch i branches).2.environment = i.environment ∧
      (chooseBranch i branches).2.limit = i.limit ∧
      match (chooseBranch i branches).1 with
      | .error e => meaningOrAll limit branches otherwise i.environment answers
          = Meaning.fail e i.environment answers
      | .ok none => meaningOrAll limit branches otherwise i.environment answers
          = otherwise i.environment answers
      | .ok (some body) => (∃ condition span, .branch condition body span ∈ branches) ∧
          (∀ line ∈ loopLines body, line ∈ loopLinesAll branches) ∧
          meaningOrAll limit branches otherwise i.environment answers
            = body.meaning limit i.environment answers := by
  match h with
  | .nil => exact ⟨rfl, rfl, rfl⟩
  | .cons h hrest =>
    rename_i condition body span rest
    rw [chooseBranch, meaningOrAll, meaningOr, Meaning.branch]
    cases hcondition : condition.evalCondition i.environment with
    | error e => exact ⟨rfl, rfl, rfl⟩
    | ok holds =>
      cases holds with
      | true =>
        refine ⟨rfl, rfl, ⟨condition, span, by simp⟩, fun line hline => ?_, rfl⟩
        simp [loopLinesAll, loopLines, hline]
      | false =>
        obtain ⟨henv, hlimit, hchosen⟩ :=
          chooseBranch_spec hrest limit (i.note (.condition span.line false)) otherwise answers
        refine ⟨henv, hlimit, ?_⟩
        dsimp only
        rw [if_neg (by simp)]
        -- What holds of the branches after this one holds of all of them.
        split at hchosen
        · exact hchosen
        · exact hchosen
        · obtain ⟨⟨condition', span', hmem⟩, hlines, hmeaning⟩ := hchosen
          refine ⟨⟨condition', span', by simp [hmem]⟩, fun line hline => ?_, hmeaning⟩
          simp [loopLinesAll, hlines line hline]

/-- What was chosen is pushed, unless it is nothing. -/
theorem performs_chosen {limit : Nat} {s chosen : Stmt}
    (hstep : step i (r.going (s :: rest) guards) = match chosen with
      | .absent => ⟨.quiet, j, r.going rest guards⟩
      | chosen => ⟨.quiet, j, (r.going rest guards).push chosen⟩)
    (hchosen : chosen = .absent ∨ Behaves limit chosen)
    (hlimit : j.limit = i.limit) (hi : i.limit = limit) (hfree : Free guards (loopLines chosen)) :
    Performs i (r.going (s :: rest) guards) answers
      (chosen.meaning limit j.environment answers) (r.going rest guards) := by
  by_cases habsent : chosen = .absent
  · subst habsent
    exact .quiet hstep hlimit (performs_skip j _ answers)
  · have hpushed : step i (r.going (s :: rest) guards)
        = ⟨.quiet, j, r.going (chosen :: rest) guards⟩ := by
      rw [hstep]
      split
      · exact absurd rfl habsent
      · rfl
    have hbehaves := hchosen.resolve_left habsent
    exact .quiet hpushed hlimit (hbehaves j r rest guards answers (hlimit.trans hi) hfree)

private theorem behaves_choice {limit : Nat} {first otherwise : Stmt} {others : List Stmt}
    (hbranches : Branches (first :: others))
    (hbodies : ∀ condition body span, .branch condition body span ∈ first :: others →
      Behaves limit body)
    (hotherwise : otherwise = .absent ∨ Behaves limit otherwise) :
    Behaves limit (.choice first others otherwise span) := by
  intro i r rest guards answers hlimit hfree
  have hstep := step_going i r (.choice first others otherwise span) rest guards
  simp only [execute] at hstep
  have hmeaning : meaning limit (.choice first others otherwise span)
      = meaningOrAll limit (first :: others) (otherwise.meaning limit) := rfl
  obtain ⟨henv, hlim, hchosen⟩ :=
    chooseBranch_spec hbranches limit i (otherwise.meaning limit) answers
  rw [hmeaning]
  rcases hchoose : chooseBranch i (first :: others) with ⟨_ | _ | body, j⟩
  · rw [hchoose] at hstep henv hlim hchosen
    rw [hchosen]
    exact .failed hstep hlim henv
  · rw [hchoose] at hstep henv hlim hchosen
    rw [hchosen, ← henv]
    refine performs_chosen hstep hotherwise hlim hlimit (hfree.mono fun line hline => ?_)
    simp [loopLines, hline]
  · rw [hchoose] at hstep henv hlim hchosen
    obtain ⟨⟨condition, branchSpan, hmem⟩, hlines, hchosen⟩ := hchosen
    rw [hchosen, ← henv]
    refine performs_chosen hstep (.inr (hbodies condition body branchSpan hmem)) hlim hlimit
      (hfree.mono fun line hline => ?_)
    have := hlines line hline
    rw [loopLinesAll, List.mem_append] at this
    simpa [loopLines, or_assoc] using Or.inl this

/-! ### All statements -/

mutual

/-- Every statement that can be run does what it means. -/
theorem behaves_of_runnable {limit : Nat} {s : Stmt} (h : Runnable s) : Behaves limit s := by
  match h with
  | .assign =>
    intro i r rest guards answers _ _
    exact performs_assign _ _ _
  | .output =>
    intro i r rest guards answers _ _
    exact performs_output _ _
  | .input =>
    rename_i name form span
    intro i r rest guards answers _ _
    rw [meaning]
    cases hform : InputType.ofJson? form with
    | none =>
      have hstep := step_going i r (.input name form span) rest guards
      simp only [execute, hform] at hstep
      exact .failed hstep rfl rfl
    | some type => exact performs_ask name type form span hform
  | .block hbody =>
    intro i r rest guards answers hlimit hfree
    exact .quiet (step_going i r _ rest guards) rfl
      (performs_of_runnableAll hbody i r rest guards answers hlimit hfree)
  | .loop hbody hline =>
    intro i r rest guards answers hlimit hfree
    exact performs_loop (behaves_of_runnable hbody) hline hfree 0 i r answers hlimit
  | .choice hbranches hotherwise =>
    exact behaves_choice hbranches (behaves_of_branches hbranches)
      (.inr (behaves_of_runnable hotherwise))
  | .choiceOrNothing hbranches =>
    exact behaves_choice hbranches (behaves_of_branches hbranches) (.inl rfl)
termination_by structural h

/-- Statements in order do what they mean. -/
theorem performs_of_runnableAll {limit : Nat} {ss : List Stmt} (h : RunnableAll ss)
    (i : Interpreter) (r : Run) (rest : List Stmt) (guards : LoopGuards)
    (answers : List HostValue) (hlimit : i.limit = limit) (hfree : Free guards (loopLinesAll ss)) :
    Performs i (r.going (ss ++ rest) guards) answers
      (meaningAll limit ss i.environment answers) (r.going rest guards) := by
  match h with
  | .nil => exact performs_skip i (r.going rest guards) answers
  | .cons hfirst hrest =>
    rename_i s ss
    rw [meaningAll]
    refine Performs.andThen (behaves_of_runnable hfirst i r (ss ++ rest) guards answers hlimit
      (hfree.mono fun line hline => by simp [loopLinesAll, hline])) ?_
    intro j request answers' hj
    exact performs_of_runnableAll hrest j (r.asking request) rest guards answers'
      (hj.trans hlimit) (hfree.mono fun line hline => by simp [loopLinesAll, hline])
termination_by structural h

/-- The bodies of branches do what they mean. -/
theorem behaves_of_branches {limit : Nat} {branches : List Stmt} (h : Branches branches) :
    ∀ condition body span, .branch condition body span ∈ branches → Behaves limit body := by
  match h with
  | .nil =>
    intro condition body span hmem
    cases hmem
  | .cons hbody hrest =>
    have hbehaves : Behaves limit _ := behaves_of_runnable hbody
    intro condition body span hmem
    rcases List.mem_cons.mp hmem with heq | hmem
    · obtain ⟨-, rfl, -⟩ := Stmt.branch.inj heq
      exact hbehaves
    · exact behaves_of_branches hrest condition body span hmem
termination_by structural h

end

end Run

end DialogScript
