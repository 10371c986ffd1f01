import DialogScript.Run

/-!
# What a step of a run comes to

A step hands out the value of an output, hands out the request of an input and waits for it, or
hands out nothing (`Run.step_taken`). What is handed out has an event of its own on the trace; all
other events are details. So what is said of the items of a run, and of what it leaves alone
between them, is read off three cases.
-/

namespace DialogScript

/-- Whether an event reports that something is handed out. -/
def TraceEvent.isOfItem (e : TraceEvent) : Bool := e.level == 1

/-- Whether a run has begun and not ended. -/
def RunStage.isGoing : RunStage → Bool
  | .active => true
  | .waiting => true
  | _ => false

/-- The item that is handed out. -/
def Outcome.item? : Outcome → Option Item
  | .item handed => some handed
  | _ => none

namespace Run

/-- A step that hands out nothing. It reports details only and leaves the request to the host. -/
structure Silent (i : Interpreter) (r : Run) (s : RunStep) : Prop where
  outcome : s.outcome.item? = none
  source : s.run.source = r.source
  request : s.run.request = r.request
  going : r.stage.isGoing = true → s.run.stage.isGoing = true
  trace : ∃ events : List TraceEvent, (∀ e ∈ events, e.isOfItem = false) ∧
    s.interpreter.trace = events.foldl Trace.note i.trace

/-- What a step comes to: it hands out the value of an output, it hands out the request of an input
and waits, or it hands out nothing. -/
inductive Taken (i : Interpreter) (r : Run) : RunStep → Prop
  | value {e : Expr} {span : Span} {v : Value} {left : Run}
      (hfetch : r.fetch = .ok (some (.output e span, left))) :
      Taken i r ⟨.item (.value v), i.note (.output span.line v), left⟩
  | request {name : String} {form : Json} {type : InputType} {span : Span} {left : Run}
      (hfetch : r.fetch = .ok (some (.input name form span, left)))
      (hform : InputType.ofJson? form = some type) :
      Taken i r ⟨.item (.request (.fresh name type span)), i.note (.request span.line name type),
        { left with stage := .waiting, request := some (.fresh name type span) }⟩
  | silent {s : RunStep} (h : Silent i r s) : Taken i r s

variable {i : Interpreter} {r : Run}

/-- Fetching a statement takes a run no further. -/
theorem fetch_keeps {s : Stmt} {left : Run} (h : r.fetch = .ok (some (s, left))) :
    left.source = r.source ∧ left.request = r.request ∧ left.stage = r.stage := by
  rcases fetch_eq_some h with ⟨rest, -, rfl⟩ | ⟨rest, -, -, rfl⟩ <;> exact ⟨rfl, rfl, rfl⟩

/-- Choosing a branch reports the conditions that were looked at. -/
theorem chooseBranch_trace (i : Interpreter) (branches : List Stmt) :
    ∃ events : List TraceEvent, (∀ e ∈ events, e.isOfItem = false) ∧
      (chooseBranch i branches).2.trace = events.foldl Trace.note i.trace := by
  induction branches generalizing i with
  | nil => exact ⟨[], List.forall_mem_nil _, rfl⟩
  | cons first rest ih =>
    cases first with
    | branch condition body span | loop condition body span =>
      rw [chooseBranch]
      rcases condition.evalCondition i.environment with e | _ | _
      · exact ⟨[], List.forall_mem_nil _, rfl⟩
      · -- A condition that does not hold is reported before the next one is looked at.
        obtain ⟨events, hevents, htrace⟩ := ih (i.note (.condition span.line false))
        exact ⟨_ :: events, List.forall_mem_cons.mpr ⟨rfl, hevents⟩, htrace⟩
      · exact ⟨[.condition span.line true], List.forall_mem_singleton.mpr rfl, rfl⟩
    | _ => exact ⟨[], List.forall_mem_nil _, rfl⟩

theorem Silent.failed (i : Interpreter) (r : Run) (e : RunError) : Silent i r ⟨.failed e, i, r⟩ :=
  ⟨rfl, rfl, rfl, id, [], List.forall_mem_nil _, rfl⟩

private theorem Silent.of_fetch {s : Stmt} {left : Run} {t : RunStep}
    (hfetch : r.fetch = .ok (some (s, left))) (h : Silent i left t) : Silent i r t := by
  obtain ⟨hsource, hrequest, hstage⟩ := fetch_keeps hfetch
  exact ⟨h.outcome, h.source.trans hsource, h.request.trans hrequest, hstage ▸ h.going, h.trace⟩

private theorem loopStep_silent (i : Interpreter) (r : Run) (condition : Expr) (body : Stmt)
    (span : Span) :
    Silent i r (loopStep i r condition body span) := by
  rw [loopStep]
  rcases condition.evalCondition i.environment with e | _ | _
  · exact .failed i r _
  · exact ⟨rfl, rfl, rfl, id, [.loopEnd span.line], List.forall_mem_singleton.mpr rfl, rfl⟩
  · dsimp only
    split
    · exact ⟨rfl, rfl, rfl, id, [], List.forall_mem_nil _, rfl⟩
    · exact ⟨rfl, rfl, rfl, id, [.iteration span.line _], List.forall_mem_singleton.mpr rfl, rfl⟩

private theorem execute_taken {s : Stmt} {left : Run} (hfetch : r.fetch = .ok (some (s, left))) :
    Taken i r (execute i left s) := by
  cases s with
  | output value span =>
    rw [execute]
    rcases value.eval i.environment with e | v
    · exact .silent (.of_fetch hfetch (.failed i left _))
    · exact .value hfetch
  | input name form span =>
    rw [execute]
    cases hform : InputType.ofJson? form with
    | none => exact .silent (.of_fetch hfetch (.failed i left _))
    | some type => exact .request hfetch hform
  | assign name value span =>
    rw [execute]
    rcases value.eval i.environment with e | v
    · exact .silent (.of_fetch hfetch (.failed i left _))
    · exact .silent (.of_fetch hfetch ⟨rfl, rfl, rfl, id, [.assignment span.line name v],
        List.forall_mem_singleton.mpr rfl, rfl⟩)
  | loop condition body span =>
    exact .silent (.of_fetch hfetch (loopStep_silent i left condition body span))
  | choice first others otherwise span =>
    obtain ⟨events, hevents, htrace⟩ := chooseBranch_trace i (first :: others)
    rw [execute]
    rcases hchoose : chooseBranch i (first :: others) with ⟨e | chosen, j⟩
    · rw [hchoose] at htrace
      exact .silent (.of_fetch hfetch ⟨rfl, rfl, rfl, id, events, hevents, htrace⟩)
    · rw [hchoose] at htrace
      dsimp only
      split <;> exact .silent (.of_fetch hfetch ⟨rfl, rfl, rfl, id, events, hevents, htrace⟩)
  | block body span =>
    exact .silent (.of_fetch hfetch ⟨rfl, rfl, rfl, id, [], List.forall_mem_nil _, rfl⟩)
  | branch | expression | program | absent =>
    exact .silent (.of_fetch hfetch (.failed i left _))

theorem step_taken (i : Interpreter) (r : Run) : Taken i r (step i r) := by
  unfold step
  split
  · exact .silent ⟨rfl, rfl, rfl, id, [], List.forall_mem_nil _, rfl⟩
  · unfold takeAnswer
    split
    · exact .silent ⟨rfl, rfl, rfl, fun _ => rfl, [], List.forall_mem_nil _, rfl⟩
    · split
      · exact .silent (.failed i r _)
      · exact .silent ⟨rfl, rfl, rfl, fun _ => rfl, [.assignment _ _ _],
          List.forall_mem_singleton.mpr rfl, rfl⟩
  · split
    · exact .silent (.failed i r _)
    · exact .silent ⟨rfl, rfl, rfl, id, [], List.forall_mem_nil _, rfl⟩
    · rename_i hfetch
      exact execute_taken hfetch

/-- Within a budget a run comes to what a single step comes to after quiet ones. -/
theorem exists_step_of_advance {budget : Nat} (h : (advance budget i r).outcome ≠ .quiet) :
    ∃ spent i' r', advance spent i r = ⟨.quiet, i', r'⟩ ∧ advance budget i r = step i' r' := by
  induction budget generalizing i r with
  | zero => exact absurd rfl h
  | succ budget ih =>
    rw [advance] at h ⊢
    rcases hstep : step i r with ⟨outcome, i', r'⟩
    rw [hstep] at h
    cases outcome with
    | quiet =>
      -- The induction is on the budget: the step that is looked for comes later.
      obtain ⟨spent, i'', r'', hquiet, hlast⟩ := ih h
      exact ⟨spent + 1, i'', r'', by rw [advance, hstep]; exact hquiet, hlast⟩
    | item | done | failed => exact ⟨0, i, r, rfl, hstep.symm⟩

/-- Nothing is done after the step that hands out an item. -/
theorem next_of_item {budget : Nat} {item : Item} (h : (next budget i r).outcome = .item item) :
    next budget i r = advance budget (start i r).1 (start i r).2 := by
  rw [next] at h ⊢
  dsimp only at h ⊢
  rcases hadvance : advance budget (start i r).1 (start i r).2 with ⟨outcome, i', r'⟩
  rw [hadvance] at h
  cases outcome with
  | item | quiet => rfl
  | done | failed => cases h

end Run

end DialogScript
