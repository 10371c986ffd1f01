import DialogScript.Dialog
import DialogScript.Play

/-!
# Trace levels

The level of a trace decides what is written, and nothing else. A step of a run writes to the trace
and never reads it (`Run.step_untraced`), so runs come to the same at all levels; and what is
written at a lower level is what is written at a higher one, cut to the lines of the lower level
(`Trace.cutTo`). Tracing an event, opening the file and closing it all go well with cutting; so does
whatever a host does with a run or with a dialog (`play_and_trace_of_levels`).
-/

namespace DialogScript

/-- Whether a level asks for a line: from level 1 on for outputs and inputs, from level 2 on also
for assignments and fulfilled inputs, from level 3 on also for conditions and loops. -/
def TraceEvent.wantedAt (level : Int) : TraceEvent → Bool
  | .output _ _ => 1 ≤ level
  | .request _ _ _ => 1 ≤ level
  | .assignment _ _ _ => 2 ≤ level
  | .condition _ _ => 3 ≤ level
  | .iteration _ _ => 3 ≤ level
  | .loopEnd _ => 3 ≤ level

/-- An event is wanted at its own level and at all higher ones. -/
private theorem TraceEvent.wantedAt_eq (level : Int) (e : TraceEvent) :
    e.wantedAt level = decide (e.level ≤ level) := by
  cases e <;> rfl

private theorem TraceEvent.level_pos (e : TraceEvent) : 0 < e.level := by
  cases e <;> simp [TraceEvent.level]

namespace Trace

variable {level : Int} {t : Trace}

/-! ### Cut traces -/

/-- The trace of the same runs at a lower level: it has the lines that the level asks for, and there
is no file if the level asks for none. -/
def cutTo (level : Int) (t : Trace) : Trace where
  level := level
  written := if 0 < level then t.written.map (List.filter (TraceEvent.wantedAt level)) else none
  isOpen := decide (0 < level) && t.isOpen
  runs := t.runs

/-- A trace whose level is no lower than another one; there is a file if it is open. -/
structure Covers (level : Int) (t : Trace) : Prop where
  level_le : level ≤ t.level
  filed : t.isOpen = true → t.written.isSome = true

/-- A trace that is started still covers a level. -/
theorem Covers.start (h : t.Covers level) : t.start.Covers level := by
  unfold Trace.start
  split
  · refine ⟨h.level_le, fun _ => ?_⟩
    dsimp only
    split <;> rfl
  · exact ⟨h.level_le, h.filed⟩

private theorem start_cutTo (h : t.Covers level) : (t.cutTo level).start = t.start.cutTo level := by
  by_cases hpos : 0 < level
  · have hhigher : 0 < t.level := Int.lt_of_lt_of_le hpos h.level_le
    cases hopen : t.isOpen with
    | true => simp [Trace.start, cutTo, hpos, hopen]
    | false =>
      -- Both files are opened, anew or for appending.
      by_cases hruns : t.runs = 0
      · simp [Trace.start, cutTo, hpos, hhigher, hopen, hruns]
      · cases hwritten : t.written <;>
          simp [Trace.start, cutTo, hpos, hhigher, hopen, hruns, hwritten]
  · by_cases hopened : 0 < t.level ∧ t.isOpen = false <;>
      simp [Trace.start, cutTo, hpos, hopened]

/-- A trace that is stopped still covers a level. -/
theorem Covers.stop (h : t.Covers level) : t.stop.Covers level :=
  ⟨h.level_le, by simp [Trace.stop]⟩

private theorem stop_cutTo (level : Int) (t : Trace) :
    (t.cutTo level).stop = t.stop.cutTo level := by
  simp [Trace.stop, cutTo]

/-- A trace that notes an event still covers a level. -/
theorem Covers.note (h : t.Covers level) (e : TraceEvent) : (t.note e).Covers level := by
  unfold Trace.note
  split
  · exact ⟨h.level_le, fun _ => rfl⟩
  · exact h

/-- A cut trace notes an event if the level asks for it. -/
private theorem note_cutTo (h : t.Covers level) (e : TraceEvent) :
    (t.cutTo level).note e = (t.note e).cutTo level := by
  have hlevel := h.level_le
  have hpos := e.level_pos
  cases hopen : t.isOpen with
  | false => simp [Trace.note, cutTo, hopen]
  | true =>
    obtain ⟨events, hevents⟩ := Option.isSome_iff_exists.mp (h.filed hopen)
    by_cases hwanted : e.level ≤ level
    · have hless : 0 < level := by omega
      have hhigher : e.level ≤ t.level := by omega
      simp [Trace.note, cutTo, hwanted, hless, hhigher, hopen, hevents, TraceEvent.wantedAt_eq]
    · -- A line beyond the level is cut off if it is written at all.
      by_cases hhigher : e.level ≤ t.level <;>
        simp [Trace.note, cutTo, hwanted, hhigher, hopen, hevents, TraceEvent.wantedAt_eq]

/-- Cutting a trace to which events are added is adding them to the trace that is cut. -/
theorem foldl_note_cutTo (h : t.Covers level) (events : List TraceEvent) :
    events.foldl Trace.note (t.cutTo level) = (events.foldl Trace.note t).cutTo level ∧
      (events.foldl Trace.note t).Covers level := by
  induction events generalizing t with
  | nil => exact ⟨rfl, h⟩
  | cons e rest ih =>
    rw [List.foldl_cons, List.foldl_cons, note_cutTo h]
    exact ih (h.note e)

end Trace

/-! ### Steps do not read the trace -/

namespace Run

/-- A step that comes to the same whatever is on the trace, to which it adds some events. -/
def Untraced (limit : Nat) (env : Environment) (execution : Interpreter → RunStep) : Prop :=
  ∃ outcome env' after, ∃ events : List TraceEvent, ∀ t,
    execution ⟨limit, env, t⟩ = ⟨outcome, ⟨limit, env', events.foldl Trace.note t⟩, after⟩

/-- The choice of a branch depends on the trace in nothing but what is noted. -/
private theorem chooseBranch_untraced (limit : Nat) (env : Environment) (branches : List Stmt) :
    ∃ result, ∃ events : List TraceEvent, ∀ t,
      chooseBranch ⟨limit, env, t⟩ branches
        = (result, ⟨limit, env, events.foldl Trace.note t⟩) := by
  induction branches with
  | nil => exact ⟨_, [], fun t => rfl⟩
  | cons first rest ih =>
    cases first with
    | branch condition body span | loop condition body span =>
      simp only [chooseBranch]
      rcases condition.evalCondition env with e | _ | _
      · exact ⟨_, [], fun t => rfl⟩
      · obtain ⟨result, events, hrest⟩ := ih
        exact ⟨result, .condition span.line false :: events, fun t => hrest _⟩
      · exact ⟨_, [.condition span.line true], fun t => rfl⟩
    | _ => exact ⟨_, [], fun t => rfl⟩

/-- The execution of a statement depends on the trace in nothing but what is noted. -/
private theorem execute_untraced (limit : Nat) (env : Environment) (r : Run) (s : Stmt) :
    Untraced limit env fun i => execute i r s := by
  cases s with
  | output value span =>
    simp only [Untraced, execute]
    rcases value.eval env with e | v
    · exact ⟨_, _, _, [], fun t => rfl⟩
    · exact ⟨_, _, _, [.output span.line v], fun t => rfl⟩
  | assign name value span =>
    simp only [Untraced, execute]
    rcases value.eval env with e | v
    · exact ⟨_, _, _, [], fun t => rfl⟩
    · exact ⟨_, env.set name v, _, [.assignment span.line name v], fun t => rfl⟩
  | loop condition body span =>
    simp only [Untraced, execute, loopStep]
    rcases condition.evalCondition env with e | _ | _
    · exact ⟨_, _, _, [], fun t => rfl⟩
    · exact ⟨_, _, _, [.loopEnd span.line], fun t => rfl⟩
    · dsimp only
      split
      · exact ⟨_, _, _, [], fun t => rfl⟩
      · exact ⟨_, _, _, [.iteration span.line _], fun t => rfl⟩
  | choice first others otherwise span =>
    obtain ⟨result, events, hchosen⟩ := chooseBranch_untraced limit env (first :: others)
    simp only [Untraced, execute, hchosen]
    rcases result with e | chosen
    · exact ⟨_, _, _, events, fun t => rfl⟩
    · dsimp only
      split <;> exact ⟨_, _, _, events, fun t => rfl⟩
  | input name form span =>
    simp only [Untraced, execute]
    rcases InputType.ofJson? form with _ | type
    · exact ⟨_, _, _, [], fun t => rfl⟩
    · exact ⟨_, _, _, [.request span.line name type], fun t => rfl⟩
  | block | branch | expression | program | absent => exact ⟨_, _, _, [], fun t => rfl⟩

/-- Taking a step does not depend on the trace. -/
theorem step_untraced (limit : Nat) (env : Environment) (r : Run) :
    Untraced limit env fun i => step i r := by
  unfold step
  split
  · exact ⟨_, _, _, [], fun t => rfl⟩
  · unfold takeAnswer
    split
    · exact ⟨_, _, _, [], fun t => rfl⟩
    · rename_i request _
      split
      · exact ⟨_, _, _, [], fun t => rfl⟩
      · rename_i v _
        exact ⟨_, env.set request.name v, _, [.assignment request.span.line request.name v],
          fun t => rfl⟩
  · split
    · exact ⟨_, _, _, [], fun t => rfl⟩
    · exact ⟨_, _, _, [], fun t => rfl⟩
    · exact execute_untraced limit env _ _

end Run

/-! ### Runs at a lower level -/

/-- The interpreter with its trace cut to a lower level. -/
def Interpreter.cutTo (level : Int) (i : Interpreter) : Interpreter :=
  { i with trace := i.trace.cutTo level }

/-- What a step comes to, with the trace cut to a lower level. -/
def RunStep.cutTo (level : Int) (s : RunStep) : RunStep :=
  { s with interpreter := s.interpreter.cutTo level }

/-- A played run with the trace cut to a lower level. -/
def Play.cutTo (level : Int) (p : Play) : Play :=
  { p with interpreter := p.interpreter.cutTo level }

namespace Run

variable {level : Int} {i : Interpreter} {r : Run}

/-- A step of a run with a cut trace is the step of the run, cut. -/
private theorem step_cutTo (h : i.trace.Covers level) (r : Run) :
    step (i.cutTo level) r = (step i r).cutTo level ∧
      (step i r).interpreter.trace.Covers level := by
  obtain ⟨outcome, env, after, events, hstep⟩ := step_untraced i.limit i.environment r
  obtain ⟨hevents, hcovers⟩ := Trace.foldl_note_cutTo h events
  have hhigh : step i r = _ := hstep i.trace
  have hlow : step (i.cutTo level) r = _ := hstep (i.trace.cutTo level)
  rw [hhigh, hlow, hevents]
  exact ⟨rfl, hcovers⟩

/-- Some steps of a run with a cut trace are those of the run, cut. -/
private theorem advance_cutTo (budget : Nat) (h : i.trace.Covers level) (r : Run) :
    advance budget (i.cutTo level) r = (advance budget i r).cutTo level ∧
      (advance budget i r).interpreter.trace.Covers level := by
  induction budget generalizing i r with
  | zero => exact ⟨rfl, h⟩
  | succ budget ih =>
    obtain ⟨hstep, hcovers⟩ := step_cutTo h r
    rw [advance, advance, hstep]
    rcases hfirst : step i r with ⟨outcome, i', r'⟩
    rw [hfirst] at hcovers
    cases outcome with
    | quiet => exact ih hcovers r'
    | item | done | failed => exact ⟨rfl, hcovers⟩

private theorem start_cutTo (h : i.trace.Covers level) (r : Run) :
    start (i.cutTo level) r = ((start i r).1.cutTo level, (start i r).2) ∧
      (start i r).1.trace.Covers level := by
  unfold start
  split
  · refine ⟨?_, h.start⟩
    simp only [Interpreter.cutTo, Trace.start_cutTo h]
  · exact ⟨rfl, h⟩

private theorem close_cutTo (h : i.trace.Covers level) (r : Run) :
    close (i.cutTo level) r = ((close i r).1.cutTo level, (close i r).2) ∧
      (close i r).1.trace.Covers level := by
  unfold close
  split
  · exact ⟨rfl, h⟩
  · exact ⟨rfl, h⟩
  · refine ⟨?_, h.stop⟩
    simp only [Interpreter.cutTo, Trace.stop_cutTo]

private theorem next_cutTo (budget : Nat) (h : i.trace.Covers level) (r : Run) :
    next budget (i.cutTo level) r = (next budget i r).cutTo level ∧
      (next budget i r).interpreter.trace.Covers level := by
  obtain ⟨hstart, hstarted⟩ := start_cutTo h r
  obtain ⟨hadvance, hcovers⟩ := advance_cutTo budget hstarted (start i r).2
  simp only [next, hstart, hadvance]
  rcases hlast : advance budget (start i r).1 (start i r).2 with ⟨outcome, i', r'⟩
  rw [hlast] at hcovers
  obtain ⟨hclose, hclosed⟩ := close_cutTo hcovers r'
  cases outcome with
  | quiet | item => exact ⟨rfl, hcovers⟩
  | done | failed =>
    simp only [RunStep.cutTo, hclose]
    exact ⟨trivial, hclosed⟩

/-- A run is played with a cut trace as it is played, cut. -/
private theorem playSteps_cutTo (budget : Nat) (h : i.trace.Covers level) (r : Run)
    (answers : List HostValue) :
    playSteps budget (i.cutTo level) r answers = (playSteps budget i r answers).cutTo level := by
  induction budget generalizing i r answers with
  | zero => rfl
  | succ budget ih =>
    obtain ⟨hstep, hcovers⟩ := step_cutTo h r
    rw [playSteps, playSteps, hstep]
    rcases hfirst : step i r with ⟨outcome, i', r'⟩
    rw [hfirst] at hcovers
    cases outcome with
    | quiet => exact ih hcovers r' answers
    | done | failed =>
      simp only [RunStep.cutTo, (close_cutTo hcovers r').1]
      rfl
    | item item =>
      cases item with
      | value v =>
        simp only [RunStep.cutTo, ih hcovers]
        rfl
      | request request =>
        cases answers with
        | nil => rfl
        | cons answer rest =>
          simp only [RunStep.cutTo]
          rcases r'.give request answer with e | after
          · rfl
          · simp only [ih hcovers]
            rfl

private theorem play_cutTo (budget : Nat) (h : i.trace.Covers level) (r : Run)
    (answers : List HostValue) :
    r.play budget (i.cutTo level) answers = (r.play budget i answers).cutTo level := by
  obtain ⟨hstart, hstarted⟩ := start_cutTo h r
  simp only [play, hstart]
  exact playSteps_cutTo budget hstarted _ answers

end Run

/-! ### Dialogs at a lower level -/

namespace Dialog

variable {level : Int} {d : Dialog}

/-- The dialog with its trace cut to a lower level. -/
def cutTo (level : Int) (d : Dialog) : Dialog := { d with interpreter := d.interpreter.cutTo level }

private theorem closeRun_cutTo (h : d.interpreter.trace.Covers level) (name : String) :
    (d.cutTo level).closeRun name = (d.closeRun name).cutTo level ∧
      (d.closeRun name).interpreter.trace.Covers level := by
  have hrun : (d.cutTo level).run? name = d.run? name := rfl
  unfold closeRun
  rw [hrun]
  split
  · exact ⟨rfl, h⟩
  · rename_i r _
    obtain ⟨hclose, hclosed⟩ := Run.close_cutTo h r
    have hlow : r.close (d.cutTo level).interpreter = _ := hclose
    rw [hlow]
    exact ⟨rfl, hclosed⟩

/-- A step of a dialog with a cut trace has the same reply, and what is left is cut. -/
private theorem perform_cutTo (budget : Nat) (h : d.interpreter.trace.Covers level)
    (st : DialogStep) :
    (d.cutTo level).perform budget st
        = ((d.perform budget st).1, (d.perform budget st).2.cutTo level) ∧
      (d.perform budget st).2.interpreter.trace.Covers level := by
  have hrun : ∀ name, (d.cutTo level).run? name = d.run? name := fun _ => rfl
  cases st with
  | start name script =>
    obtain ⟨hclose, hclosed⟩ := closeRun_cutTo h name
    simp only [perform, hclose]
    exact ⟨rfl, hclosed⟩
  | close name =>
    obtain ⟨hclose, hclosed⟩ := closeRun_cutTo h name
    simp only [perform, hclose]
    exact ⟨trivial, hclosed⟩
  | next name =>
    simp only [perform, advanceRun, hrun]
    split
    · exact ⟨rfl, h⟩
    · rename_i r _
      obtain ⟨hnext, hcovers⟩ := Run.next_cutTo budget h r
      have hlow : r.next budget (d.cutTo level).interpreter = _ := hnext
      rw [hlow]
      rcases hlast : r.next budget d.interpreter with ⟨outcome, i', r'⟩
      rw [hlast] at hcovers
      cases outcome <;> exact ⟨rfl, hcovers⟩
  | give name value =>
    simp only [perform, giveRun, hrun]
    split
    · exact ⟨rfl, h⟩
    · split
      · exact ⟨rfl, h⟩
      · split <;> exact ⟨rfl, h⟩

/-- A dialog with a cut trace has the same replies, and what is left is cut. -/
private theorem performAll_cutTo (budget : Nat) (h : d.interpreter.trace.Covers level)
    (steps : List DialogStep) :
    (d.cutTo level).performAll budget steps
      = ((d.performAll budget steps).1, (d.performAll budget steps).2.cutTo level) := by
  induction steps generalizing d with
  | nil => rfl
  | cons st rest ih =>
    obtain ⟨hperform, hcovers⟩ := perform_cutTo budget h st
    simp only [performAll, hperform, ih hcovers]

end Dialog

private theorem Interpreter.fresh_cutTo (limit : Nat) (level level' : Int) :
    (Interpreter.fresh limit level').cutTo level = .fresh limit level := by
  simp [cutTo, fresh, Trace.cutTo, Trace.ofLevel]

private theorem Interpreter.covers_fresh (limit : Nat) {level level' : Int} (h : level ≤ level') :
    (Interpreter.fresh limit level').trace.Covers level :=
  ⟨h, by simp [fresh, Trace.ofLevel]⟩

/-- The level of a trace changes nothing but the trace: whatever a host answers a run and whatever
it does with a dialog, the items, the outcome and the variables are those of any other level, and
the file of a lower level holds exactly those lines of the file of a higher one that the lower level
asks for. -/
theorem play_and_trace_of_levels (limit : Nat) (level level' : Int) (budget : Nat) :
    (∀ (r : Run) (answers : List HostValue),
      let low := r.play budget (.fresh limit level) answers
      let high := r.play budget (.fresh limit level') answers
      (low.items = high.items ∧ low.ending = high.ending ∧ low.answers = high.answers ∧
        low.interpreter.environment = high.interpreter.environment) ∧
        (level ≤ level' → low.interpreter.trace = high.interpreter.trace.cutTo level)) ∧
    ∀ (digits : DigitLimit) (steps : List DialogStep),
      let low := (Dialog.ofInterpreter (.fresh limit level) digits).performAll budget steps
      let high := (Dialog.ofInterpreter (.fresh limit level') digits).performAll budget steps
      (low.1 = high.1 ∧ low.2.runs = high.2.runs ∧ low.2.environment = high.2.environment) ∧
        (level ≤ level' → low.2.interpreter.trace = high.2.interpreter.trace.cutTo level) := by
  have hplay : ∀ {level level' : Int}, level ≤ level' → ∀ (r : Run) (answers : List HostValue),
      r.play budget (.fresh limit level) answers
        = (r.play budget (.fresh limit level') answers).cutTo level := by
    intro level level' hlevel r answers
    rw [← Interpreter.fresh_cutTo limit level level']
    exact Run.play_cutTo budget (Interpreter.covers_fresh limit hlevel) r answers
  have hperform : ∀ {level level' : Int}, level ≤ level' →
      ∀ (digits : DigitLimit) (steps : List DialogStep),
      let high := (Dialog.ofInterpreter (.fresh limit level') digits).performAll budget steps
      (Dialog.ofInterpreter (.fresh limit level) digits).performAll budget steps
        = (high.1, high.2.cutTo level) := by
    intro level level' hlevel digits steps
    rw [← Interpreter.fresh_cutTo limit level level']
    exact Dialog.performAll_cutTo (d := Dialog.ofInterpreter (.fresh limit level') digits) budget
      (Interpreter.covers_fresh limit hlevel) steps
  -- One of the two levels is the lower; what is not the trace does not depend on which.
  constructor
  · intro r answers
    refine ⟨?_, fun hlevel => congrArg (·.interpreter.trace) (hplay hlevel r answers)⟩
    rcases Int.le_total level level' with hlevel | hlevel
    · rw [hplay hlevel]
      exact ⟨rfl, rfl, rfl, rfl⟩
    · rw [hplay hlevel]
      exact ⟨rfl, rfl, rfl, rfl⟩
  · intro digits steps
    refine ⟨?_, fun hlevel => congrArg (·.2.interpreter.trace) (hperform hlevel digits steps)⟩
    rcases Int.le_total level level' with hlevel | hlevel
    · rw [hperform hlevel]
      exact ⟨rfl, rfl, rfl⟩
    · rw [hperform hlevel]
      exact ⟨rfl, rfl, rfl⟩

/-- A loop with an assignment and an output, and an input after it. -/
def countThenAsk : Listing Stmt ParseError :=
  let span (line : Int) : Span := .point line 1
  let x : Expr := .variable "x" (.point 2 7)
  ⟨[.assign "x" (.integer 0 (span 1)) (span 1),
    .loop (.binary .less x (.integer 1 (span 2)) (span 2))
      (.block [.output x (span 3), .assign "x" (.binary .add x (.integer 1 (span 4)) (span 4))
        (span 4)] (span 3)) (span 2),
    .input "y" (.text "any") (span 5)], none⟩

/-- The files of one run at four levels. -/
theorem play_and_trace_of_levels_countThenAsk :
    let run := Run.ofListing .empty countThenAsk
    let written := fun level : Int =>
      (run.play 20 (.fresh 9 level) [.boolean true]).interpreter.trace.written
    written 3 = some [.assignment 1 "x" (.integer 0), .iteration 2 1, .output 3 (.integer 0),
        .assignment 4 "x" (.integer 1), .loopEnd 2, .request 5 "y" .any,
        .assignment 5 "y" (.boolean true)] ∧
      written 2 = some [.assignment 1 "x" (.integer 0), .output 3 (.integer 0),
        .assignment 4 "x" (.integer 1), .request 5 "y" .any, .assignment 5 "y" (.boolean true)] ∧
      written 1 = some [.output 3 (.integer 0), .request 5 "y" .any] ∧
      written 0 = none := by
  intro run written
  have hcut : ∀ level : Int, level ≤ 3 → written level
      = ((run.play 20 (.fresh 9 3) [.boolean true]).interpreter.trace.cutTo level).written :=
    fun level hlevel => congrArg Trace.written
      (((play_and_trace_of_levels 9 level 3 20).1 run [.boolean true]).2 hlevel)
  have hall : written 3 = some [.assignment 1 "x" (.integer 0), .iteration 2 1,
      .output 3 (.integer 0), .assignment 4 "x" (.integer 1), .loopEnd 2, .request 5 "y" .any,
      .assignment 5 "y" (.boolean true)] := by decide +kernel
  refine ⟨hall, ?_, ?_, ?_⟩
  · rw [hcut 2 (by decide), Trace.cutTo]
    exact congrArg (Option.map _) hall
  · rw [hcut 1 (by decide), Trace.cutTo]
    exact congrArg (Option.map _) hall
  · exact hcut 0 (by decide)

end DialogScript
