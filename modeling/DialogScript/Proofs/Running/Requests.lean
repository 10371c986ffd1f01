import DialogScript.Proofs.Running.Independence
import DialogScript.Proofs.Running.Steps

/-!
# Requests are given one value

A request is a cell that host and run share. Of the values that a host offers it, in whatever order
and between whatever other steps, it takes the first that converts and is of the type it asks for,
and refuses every other one without a change to the dialog (`Request.offered`). The run reads the
cell once, when it is resumed: then the variable becomes the value, or the run fails at the
statement that asked (`request_writeOnce`).
-/

namespace DialogScript

/-! ### The cell -/

/-- The script value of a host's value, if it is what an input type asks for. -/
def InputType.accept? (type : InputType) (value : HostValue) : Option Value :=
  value.toValue.toOption.filter fun v => type.admits v.type

namespace Request

/-- Why a request that waits for its value refuses one. -/
def refusal (q : Request) (value : HostValue) : RuntimeCause :=
  match value.toValue with
  | .error e => .inputUnusable q.name e
  | .ok v => .inputType q.name q.type v.type

/-- A request after a host has offered values to it. -/
def offered (q : Request) (values : List HostValue) : Request :=
  { q with result := q.result.or (values.findSome? q.type.accept?) }

@[simp]
theorem offered_nil (q : Request) : q.offered [] = q := by
  simp [offered]

private theorem offered_append (q : Request) (first second : List HostValue) :
    q.offered (first ++ second) = (q.offered first).offered second := by
  simp [offered, Option.or_assoc]

variable {q : Request} {value : HostValue} {v : Value}

private theorem give_of_fulfilled (h : q.result = some v) (value : HostValue) :
    q.give value = .error ⟨.inputGiven q.name, q.span⟩ := by
  rw [give, h]

theorem give_of_accepted (h : q.result = none) (hvalue : q.type.accept? value = some v) :
    q.give value = .ok { q with result := some v } := by
  obtain ⟨hconverted, hadmits⟩ := Option.filter_eq_some_iff.mp hvalue
  rw [give, h]
  cases hto : value.toValue with
  | error e => simp [hto, Except.toOption] at hconverted
  | ok v' =>
    obtain rfl : v' = v := by simpa [hto, Except.toOption] using hconverted
    exact if_pos hadmits

theorem give_of_refused (h : q.result = none) (hvalue : q.type.accept? value = none) :
    q.give value = .error ⟨q.refusal value, q.span⟩ := by
  rw [give, h, refusal]
  rw [InputType.accept?] at hvalue
  cases hto : value.toValue with
  | error e => rfl
  | ok v =>
    have hadmits : ¬q.type.admits v.type = true := by
      simpa [hto, Except.toOption] using hvalue
    exact if_neg hadmits

/-- A request that takes a value has been offered it. -/
theorem eq_offered_of_give {filled : Request} (h : q.give value = .ok filled) :
    filled = q.offered [value] := by
  cases hresult : q.result with
  | some v =>
    rw [give_of_fulfilled hresult] at h
    cases h
  | none =>
    cases hvalue : q.type.accept? value with
    | none =>
      rw [give_of_refused hresult hvalue] at h
      cases h
    | some v =>
      rw [give_of_accepted hresult hvalue] at h
      obtain rfl := Except.ok.inj h
      simp [offered, hresult, hvalue]

/-- A request that refuses a value is as if it had not been offered. -/
theorem offered_of_give_eq_error {e : RuntimeError} (h : q.give value = .error e) :
    q.offered [value] = q := by
  cases hresult : q.result with
  | some v =>
    rw [offered, hresult, Option.some_or, ← hresult]
  | none =>
    cases hvalue : q.type.accept? value with
    | none => simp [offered, hvalue]
    | some v =>
      rw [give_of_accepted hresult hvalue] at h
      cases h

end Request

/-! ### Runs that ask -/

namespace Run

/-- A run comes to a statement that asks for a value, which is made a request. -/
def ComesToAsk (i : Interpreter) (r : Run) (q : Request) : Prop :=
  ∃ spent i' r' form left, advance spent (start i r).1 (start i r).2 = ⟨.quiet, i', r'⟩ ∧
    r'.fetch = .ok (some (.input q.name form q.span, left)) ∧
    InputType.ofJson? form = some q.type ∧ q.result = none

/-- What a step of a run leaves alone: its source, and its request unless it hands out another. -/
structure KeepsRequest (r : Run) (s : RunStep) : Prop where
  source : s.run.source = r.source
  request : (∀ q, s.outcome ≠ .item (.request q)) → s.run.request = r.request

/-- The run waits with a request that it has just handed out. -/
structure Waits (s : RunStep) (q : Request) : Prop where
  stage : s.run.stage = .waiting
  request : s.run.request = some q

variable {i : Interpreter} {r : Run} {q : Request}

private theorem step_keepsRequest (i : Interpreter) (r : Run) : KeepsRequest r (step i r) := by
  have htaken := step_taken i r
  generalize step i r = s at htaken ⊢
  cases htaken with
  | value hfetch =>
    obtain ⟨hsource, hrequest, -⟩ := fetch_keeps hfetch
    exact ⟨hsource, fun _ => hrequest⟩
  | request hfetch hform =>
    obtain ⟨hsource, -, -⟩ := fetch_keeps hfetch
    exact ⟨hsource, fun h => absurd rfl (h _)⟩
  | silent h => exact ⟨h.source, fun _ => h.request⟩

private theorem advance_keepsRequest (budget : Nat) (i : Interpreter) (r : Run) :
    KeepsRequest r (advance budget i r) := by
  induction budget generalizing i r with
  | zero => exact ⟨rfl, fun _ => rfl⟩
  | succ budget ih =>
    have hfirst := step_keepsRequest i r
    rw [advance]
    rcases hstep : step i r with ⟨outcome, i', r'⟩
    rw [hstep] at hfirst
    cases outcome with
    | quiet =>
      obtain ⟨hsource, hrequest⟩ := ih i' r'
      exact ⟨hsource.trans hfirst.source,
        fun h => (hrequest h).trans (hfirst.request (by simp))⟩
    | item | done | failed => exact hfirst

private theorem next_keepsRequest (budget : Nat) (i : Interpreter) (r : Run) :
    KeepsRequest r (next budget i r) := by
  have hstart : (start i r).2.source = r.source ∧ (start i r).2.request = r.request := by
    unfold start
    split <;> exact ⟨rfl, rfl⟩
  obtain ⟨hsource, hrequest⟩ := advance_keepsRequest budget (start i r).1 (start i r).2
  have hkept : KeepsRequest r (advance budget (start i r).1 (start i r).2) :=
    ⟨hsource.trans hstart.1, fun h => (hrequest h).trans hstart.2⟩
  rw [next]
  dsimp only
  rcases hadvance : advance budget (start i r).1 (start i r).2 with ⟨outcome, i', r'⟩
  rw [hadvance] at hkept
  cases outcome with
  | quiet | item => exact hkept
  | done | failed =>
    obtain ⟨trace, htrace⟩ := close_eq i' r'
    dsimp only
    rw [htrace]
    exact ⟨hkept.source, fun _ => hkept.request (by simp)⟩

/-- Only a statement that asks for a value hands out a request, and the run waits then. -/
theorem step_request (h : (step i r).outcome = .item (.request q)) :
    Waits (step i r) q ∧ ∃ form left, r.fetch = .ok (some (.input q.name form q.span, left)) ∧
      InputType.ofJson? form = some q.type ∧ q.result = none := by
  have htaken := step_taken i r
  generalize step i r = s at h htaken ⊢
  cases htaken with
  | value hfetch => cases h
  | request hfetch hform =>
    cases h
    exact ⟨⟨rfl, rfl⟩, _, _, hfetch, hform, rfl⟩
  | silent hsilent =>
    have hnothing := hsilent.outcome
    rw [h] at hnothing
    cases hnothing

/-- A run that is taken to a request waits with it, and comes to the statement that asks. -/
theorem next_request {budget : Nat} (h : (next budget i r).outcome = .item (.request q)) :
    Waits (next budget i r) q ∧ ComesToAsk i r q := by
  -- Nothing follows the step that hands out the request, so the run is where that step left it.
  have hnext := next_of_item h
  rw [hnext] at h ⊢
  have hloud : (advance budget (start i r).1 (start i r).2).outcome ≠ .quiet := by simp [h]
  obtain ⟨spent, i', r', hspent, hlast⟩ := exists_step_of_advance hloud
  rw [hlast] at h ⊢
  obtain ⟨hwaits, form, left, hfetch, hform, hresult⟩ := step_request h
  exact ⟨hwaits, spent, i', r', form, left, hspent, hfetch, hform, hresult⟩

/-! ### Resuming -/

/-- A run that waits for a request that has its value gives it to the variable and goes on. -/
theorem next_of_answered {v : Value} (hstage : r.stage = .waiting) (hrequest : r.request = some q)
    (hresult : q.result = some v) (budget : Nat) :
    next (budget + 1) i r
      = next budget ((i.assign q.name v).note (.assignment q.span.line q.name v))
        { r with stage := .active } := by
  have hvalue : q.value = .ok v := by rw [Request.value, hresult]
  have hstep : step i r = ⟨.quiet, (i.assign q.name v).note (.assignment q.span.line q.name v),
      { r with stage := .active }⟩ := by
    simp only [step, hstage, takeAnswer, hrequest, hvalue]
  simp only [next, start, hstage, advance, hstep]

/-- A run that waits for a request without a value fails. -/
theorem next_of_unanswered (hstage : r.stage = .waiting) (hrequest : r.request = some q)
    (hresult : q.result = none) (budget : Nat) :
    next (budget + 1) i r = ⟨.failed (.runtime ⟨.inputMissing, q.span⟩),
      { i with trace := i.trace.stop }, { r with stage := .ended }⟩ := by
  have hvalue : q.value = .error ⟨.inputMissing, q.span⟩ := by rw [Request.value, hresult]
  have hstep : step i r = ⟨.failed (.runtime ⟨.inputMissing, q.span⟩), i, r⟩ := by
    simp only [step, hstage, takeAnswer, hrequest, hvalue]
  simp only [next, start, hstage, advance, hstep, close]

end Run

/-! ### Dialogs -/

/-- The values that a host offers to the run with a name. -/
def offers (name : String) (steps : List DialogStep) : List HostValue :=
  steps.filterMap fun
    | .give other value => if other = name then some value else none
    | _ => none

/-- Whether the run with a name has another request after a step that had a reply: another run takes
the name, or the run hands out its next request. -/
def replacesRequest (name : String) : DialogStep × DialogReply → Bool
  | (.start other _, _) => other == name
  | (.next other, .item (.request _)) => other == name
  | _ => false

private theorem offers_cons (name : String) (st : DialogStep) (rest : List DialogStep) :
    offers name (st :: rest) = offers name [st] ++ offers name rest := by
  rw [offers, offers, offers, ← List.filterMap_append, List.singleton_append]

private theorem offers_of_ne {name : String} {st : DialogStep} (h : st.run ≠ name) :
    offers name [st] = [] := by
  cases st with
  | give other value => simp [offers, show other ≠ name from h]
  | start | next | close => rfl

namespace Dialog

/-- The run with a name, which is of a source, has handed out a request. -/
def Holds (d : Dialog) (name : String) (source : Source) (q : Request) : Prop :=
  ∃ r, d.run? name = some r ∧ r.source = source ∧ r.request = some q

/-- How far the run with a name has come. -/
def stage? (d : Dialog) (name : String) : Option RunStage := (d.run? name).map (·.stage)

private theorem putRun_putRun (d : Dialog) (i : Interpreter) (name : String) (r r' : Run) :
    { d.putRun name r with interpreter := i }.putRun name r'
      = { d with interpreter := i }.putRun name r' := by
  simp [putRun]

variable {d : Dialog} {name : String} {source : Source} {q : Request}

theorem Holds.request (h : d.Holds name source q) : d.request? name = some q := by
  obtain ⟨r, hrun, -, hrequest⟩ := h
  rw [request?, hrun]
  exact hrequest

/-- A value that is taken changes of the dialog only the request. -/
theorem Holds.perform_of_give_ok {value : HostValue} {filled : Request}
    (h : d.Holds name source q) (hgive : q.give value = .ok filled) (budget : Nat) :
    (d.perform budget (.give name value)).1 = .given ∧
      (d.perform budget (.give name value)).2.Holds name source filled ∧
      (d.perform budget (.give name value)).2.interpreter = d.interpreter := by
  obtain ⟨r, hrun, rfl, hrequest⟩ := h
  have hperform : d.perform budget (.give name value)
      = (.given, d.putRun name { r with request := some filled }) := by
    simp only [perform, giveRun, hrun, hrequest, Run.give, hgive]
    rfl
  rw [hperform]
  exact ⟨rfl, ⟨_, run?_putRun_self _ _ _, rfl, rfl⟩, rfl⟩

/-- A value that is refused changes nothing. -/
theorem Holds.perform_of_give_error {value : HostValue} {e : RuntimeError}
    (h : d.Holds name source q) (hgive : q.give value = .error e) (budget : Nat) :
    d.perform budget (.give name value) = (.failed source (.runtime e), d) := by
  obtain ⟨r, hrun, rfl, hrequest⟩ := h
  simp only [perform, giveRun, hrun, hrequest, Run.give, hgive]
  rfl

private theorem Holds.perform_give (h : d.Holds name source q) (budget : Nat) (value : HostValue) :
    (d.perform budget (.give name value)).2.Holds name source (q.offered [value]) := by
  cases hgive : q.give value with
  | error e =>
    rw [h.perform_of_give_error hgive, Request.offered_of_give_eq_error hgive]
    exact h
  | ok filled =>
    rw [← Request.eq_offered_of_give hgive]
    exact (h.perform_of_give_ok hgive budget).2.1

theorem Holds.perform_next {budget : Nat} (h : d.Holds name source q)
    (hreply : ∀ q', (d.perform budget (.next name)).1 ≠ .item (.request q')) :
    (d.perform budget (.next name)).2.Holds name source q := by
  obtain ⟨r, hrun, rfl, hrequest⟩ := h
  obtain ⟨hsource, hkept⟩ := Run.next_keepsRequest budget d.interpreter r
  rw [Dialog.perform_next hrun] at hreply ⊢
  refine ⟨_, run?_putRun_self _ _ _, hsource, (hkept fun q' houtcome => ?_).trans hrequest⟩
  exact hreply q' (by rw [houtcome]; rfl)

/-- A step that does not replace a request leaves of it what the value makes of it that the step
offers. -/
theorem Holds.perform {budget : Nat} (h : d.Holds name source q) {st : DialogStep}
    (hst : replacesRequest name (st, (d.perform budget st).1) = false) :
    (d.perform budget st).2.Holds name source (q.offered (offers name [st])) := by
  by_cases hname : st.run = name
  · -- A step about the run itself; only a value that is offered can change the request.
    cases st with
    | start other script =>
      obtain rfl : other = name := hname
      simp [replacesRequest] at hst
    | next other =>
      obtain rfl : other = name := hname
      refine q.offered_nil.symm ▸ h.perform_next fun q' hreply => ?_
      rw [hreply] at hst
      simp [replacesRequest] at hst
    | give other value =>
      obtain rfl : other = name := hname
      have hoffers : offers other [.give other value] = [value] := by simp [offers]
      exact hoffers ▸ h.perform_give budget value
    | close other =>
      obtain rfl : other = name := hname
      obtain ⟨r, hrun, hsource, hrequest⟩ := h
      refine q.offered_nil.symm ▸ ⟨{ r with stage := .ended }, ?_, hsource, hrequest⟩
      exact (run?_closeRun_self d other).trans (by rw [hrun]; rfl)
  · rw [offers_of_ne hname, Request.offered_nil]
    obtain ⟨r, hrun, hr⟩ := h
    exact ⟨r, (run?_perform_of_ne budget d st (Ne.symm hname)).trans hrun, hr⟩

theorem Holds.performAll {budget : Nat} {steps : List DialogStep} (h : d.Holds name source q)
    (hsteps : ∀ entry ∈ d.history budget steps, replacesRequest name entry = false) :
    (d.performAll budget steps).2.Holds name source (q.offered (offers name steps)) := by
  induction steps generalizing d q with
  | nil => exact q.offered_nil.symm ▸ h
  | cons st rest ih =>
    obtain ⟨hst, hrest⟩ := List.forall_mem_cons.mp hsteps
    rw [performAll_cons, offers_cons, Request.offered_append]
    exact ih (h.perform hst) hrest

/-- Values that are offered take no run further. -/
theorem stage?_perform (budget : Nat) (d : Dialog) {st : DialogStep}
    (h : st.run = name → ∃ value, st = .give name value) :
    (d.perform budget st).2.stage? name = d.stage? name := by
  by_cases hname : st.run = name
  · obtain ⟨value, rfl⟩ := h hname
    rcases perform_give_cases budget d name value with
      hnone | ⟨_, _, hfailed⟩ | ⟨r, request, after, hrun, -, hgive, hgiven⟩
    · rw [hnone]
    · rw [hfailed]
    · obtain ⟨filled, rfl⟩ := Run.eq_asking_of_give hgive
      rw [hgiven, stage?, stage?, run?_putRun_self, hrun]
      rfl
  · rw [stage?, run?_perform_of_ne budget d st (Ne.symm hname)]
    rfl

private theorem stage?_performAll (budget : Nat) (d : Dialog) {steps : List DialogStep}
    (h : ∀ st ∈ steps, st.run = name → ∃ value, st = .give name value) :
    (d.performAll budget steps).2.stage? name = d.stage? name := by
  induction steps generalizing d with
  | nil => rfl
  | cons st rest ih =>
    obtain ⟨hst, hrest⟩ := List.forall_mem_cons.mp h
    rw [performAll_cons]
    exact (ih _ hrest).trans (stage?_perform budget d hst)

/-! ### What a host finds -/

/-- What a host finds of a request that it has offered values to, `first` being the first value
that the request accepts. -/
structure WriteOnce (held : Dialog) (name : String) (source : Source) (q : Request)
    (first : Option Value) : Prop where
  result : held.request? name = some { q with result := first }
  /-- A request that has its value refuses every other. -/
  fulfilled : ∀ v, first = some v → ∀ budget value, held.perform budget (.give name value)
    = (.failed source (.runtime ⟨.inputGiven q.name, q.span⟩), held)
  /-- A value that does not convert or is of another type is refused. -/
  refused : first = none → ∀ budget value, q.type.accept? value = none →
    held.perform budget (.give name value)
      = (.failed source (.runtime ⟨q.refusal value, q.span⟩), held)
  /-- The first other value is taken, and the variables are left alone. -/
  accepted : first = none → ∀ budget value v, q.type.accept? value = some v →
    ∃ after, held.perform budget (.give name value) = (.given, after) ∧
      after.request? name = some { q with result := some v } ∧
      after.environment = held.environment

/-- What a host finds that resumes a run which waits for the value of a request. -/
structure Resumes (held : Dialog) (name : String) (source : Source) (q : Request)
    (first : Option Value) : Prop where
  /-- The variable becomes the value and no other changes; from there the run goes on as it is. -/
  answered : ∀ v, first = some v → ∃ resumed : Dialog,
    (∀ x, resumed.environment.get? x = if q.name = x then some v else held.environment.get? x) ∧
    resumed.run? name = (held.run? name).map (fun r => { r with stage := .active }) ∧
    (∀ other, other ≠ name → resumed.run? other = held.run? other) ∧
    ∀ more, held.perform (more + 1) (.next name) = resumed.perform more (.next name)
  /-- Without a value the run fails at the statement that asked and ends, and no variable
  changes. -/
  unanswered : first = none → ∀ more, ∃ ended, held.perform (more + 1) (.next name)
      = (.failed source (.runtime ⟨.inputMissing, q.span⟩), ended) ∧
    ended.environment = held.environment ∧ ended.stage? name = some .ended ∧
    ∀ later, (ended.perform (later + 1) (.next name)).1 = .ended

private theorem Holds.writeOnce (h : d.Holds name source q) :
    d.WriteOnce name source { q with result := none } q.result := by
  refine ⟨h.request, fun v hv budget value => ?_, fun hnone budget value hvalue => ?_,
    fun hnone budget value v hvalue => ?_⟩
  · exact h.perform_of_give_error (Request.give_of_fulfilled hv value) budget
  · exact h.perform_of_give_error (Request.give_of_refused hnone hvalue) budget
  · obtain ⟨hreply, hholds, hinterpreter⟩ :=
      h.perform_of_give_ok (Request.give_of_accepted hnone hvalue) budget
    exact ⟨_, Prod.ext hreply rfl, hholds.request, congrArg Interpreter.environment hinterpreter⟩

/-- A resumed run goes on with the value of its request in the variable. -/
theorem perform_next_of_answered {r : Run} {v : Value} (hrun : d.run? name = some r)
    (hrequest : r.request = some q) (hstage : r.stage = .waiting) (hresult : q.result = some v)
    (budget : Nat) :
    d.perform (budget + 1) (.next name) = Dialog.perform budget
      (putRun { d with
          interpreter := (d.interpreter.assign q.name v).note (.assignment q.span.line q.name v) }
        name { r with stage := .active }) (.next name) := by
  rw [perform_next hrun, perform_next (run?_putRun_self _ _ _),
    Run.next_of_answered hstage hrequest hresult]
  exact Prod.ext rfl (putRun_putRun d _ _ _ _).symm

/-- A run that is resumed without a value fails and ends. -/
theorem perform_next_of_unanswered {r : Run} (hrun : d.run? name = some r)
    (hrequest : r.request = some q) (hstage : r.stage = .waiting) (hresult : q.result = none)
    (budget : Nat) :
    d.perform (budget + 1) (.next name) = (.failed r.source (.runtime ⟨.inputMissing, q.span⟩),
      putRun { d with interpreter := { d.interpreter with trace := d.interpreter.trace.stop } } name
        { r with stage := .ended }) := by
  rw [perform_next hrun, Run.next_of_unanswered hstage hrequest hresult]
  rfl

private theorem perform_next_of_ended {r : Run} (hrun : d.run? name = some r)
    (hstage : r.stage = .ended)
    (budget : Nat) : (d.perform (budget + 1) (.next name)).1 = .ended := by
  rw [perform_next hrun]
  simp only [Run.next, Run.start, hstage, Run.advance, Run.step]
  rfl

private theorem Holds.resumes (h : d.Holds name source q) (hstage : d.stage? name = some .waiting) :
    d.Resumes name source { q with result := none } q.result := by
  obtain ⟨r, hrun, rfl, hrequest⟩ := h
  have hwaiting : r.stage = .waiting := by
    rw [stage?, hrun] at hstage
    exact Option.some.inj hstage
  refine ⟨fun v hv => ⟨_, fun x => ?_, ?_, fun other hother => ?_,
      perform_next_of_answered hrun hrequest hwaiting hv⟩,
    fun hnone more => ⟨_, perform_next_of_unanswered hrun hrequest hwaiting hnone more, rfl, ?_,
      perform_next_of_ended (run?_putRun_self _ _ _) rfl⟩⟩
  · exact Environment.get?_set _ _ _ _
  · rw [run?_putRun_self, hrun]
    rfl
  · exact run?_putRun_of_ne _ _ hother
  · rw [stage?, run?_putRun_self]
    rfl

/-- After a run has handed out a request, it waits with the request of the statement that it came
to. -/
theorem asks_of_item {budget : Nat} {r : Run} (hrun : d.run? name = some r)
    (hitem : (d.perform budget (.next name)).1 = .item (.request q)) :
    r.ComesToAsk d.interpreter q ∧ (d.perform budget (.next name)).2.Holds name r.source q ∧
      (d.perform budget (.next name)).2.stage? name = some .waiting := by
  rw [perform_next hrun] at hitem ⊢
  obtain ⟨hwaits, hasks⟩ := Run.next_request (Outcome.eq_item_of_reply hitem)
  refine ⟨hasks, ⟨_, run?_putRun_self _ _ _, ?_, hwaits.request⟩, ?_⟩
  · exact (Run.next_keepsRequest _ _ _).source
  · rw [stage?, run?_putRun_self]
    exact congrArg some hwaits.stage

end Dialog

open Dialog

/-- A request is a cell that takes one value. Whatever a host does after a run has handed one out,
until the run has another: the request is that of the statement that the run came to; it holds the
first of the offered values that converts and is of its type; every other value is refused with an
error at that statement and without a change to the dialog; and if the run is then resumed, the
variable becomes the value and no other changes, or the run fails at the statement and ends. -/
theorem request_writeOnce {budget : Nat} {d : Dialog} {name : String} {r : Run} {q : Request}
    {steps : List DialogStep} (hrun : d.run? name = some r)
    (hitem : (d.perform budget (.next name)).1 = .item (.request q))
    (hkept : ∀ entry ∈ (d.perform budget (.next name)).2.history budget steps,
      replacesRequest name entry = false) :
    let held := ((d.perform budget (.next name)).2.performAll budget steps).2
    let first := (offers name steps).findSome? q.type.accept?
    r.ComesToAsk d.interpreter q ∧ held.WriteOnce name r.source q first ∧
      ((∀ st ∈ steps, st.run = name → ∃ value, st = .give name value) →
        held.Resumes name r.source q first) := by
  intro held first
  obtain ⟨hasks, hasked, hwaiting⟩ := asks_of_item hrun hitem
  have hresult : q.result = none := by
    obtain ⟨_, _, _, _, _, -, -, -, hresult⟩ := hasks
    exact hresult
  have hoffered : q.offered (offers name steps) = { q with result := first } := by
    rw [Request.offered, hresult, Option.none_or]
  -- What holds of a request that has been offered values is said of the request as it was fresh.
  have hfresh : { q with result := none } = q := by rw [← hresult]
  have hheld : held.Holds name r.source { q with result := first } :=
    hoffered ▸ hasked.performAll hkept
  refine ⟨hasks, hfresh ▸ hheld.writeOnce, fun hgives => ?_⟩
  have hstage : held.stage? name = some .waiting :=
    (stage?_performAll budget _ hgives).trans hwaiting
  exact hfresh ▸ hheld.resumes hstage

/-- A run that asks for a number, beside one that sets the same variable. -/
def askingForNumber : Dialog :=
  let span := Span.point 4 3
  ⟨.fresh 3 0,
    [("ask", .ofListing .empty ⟨[.input "x" InputType.number.toJson span], none⟩),
      ("set", .ofListing .empty ⟨[.assign "x" (.integer 9 span) span], none⟩)], .standard⟩

/-- Offers of which only the fifth is a number that fits; the variable is set meanwhile. -/
def numberOffers : List DialogStep :=
  [.give "ask" (.text "5"), .give "ask" (.boolean true), .next "set",
    .give "ask" (.integer 2147483648), .give "ask" (.other "list"), .give "ask" (.integer 5),
    .give "ask" (.integer 6)]

theorem request_writeOnce_number :
    let q : Request := .fresh "x" .number (.point 4 3)
    let asked := (askingForNumber.perform 3 (.next "ask")).2
    let held := (asked.performAll 3 numberOffers).2
    (askingForNumber.perform 3 (.next "ask")).1 = .item (.request q) ∧
      held.WriteOnce "ask" .empty q (some (.integer 5)) ∧
      held.Resumes "ask" .empty q (some (.integer 5)) ∧
      asked.WriteOnce "ask" .empty q none ∧ asked.Resumes "ask" .empty q none := by
  intro q asked held
  have hitem : (askingForNumber.perform 3 (.next "ask")).1 = .item (.request q) := rfl
  have hkept : ∀ entry ∈ asked.history 3 numberOffers, replacesRequest "ask" entry = false := by
    decide +kernel
  obtain ⟨-, hheld, hresumed⟩ := request_writeOnce rfl hitem hkept
  have hnothing : ∀ entry ∈ asked.history 3 [], replacesRequest "ask" entry = false :=
    List.forall_mem_nil _
  obtain ⟨-, hasked, hfails⟩ := request_writeOnce rfl hitem hnothing
  have hfirst : (offers "ask" numberOffers).findSome? q.type.accept? = some (.integer 5) := by
    decide +kernel
  rw [hfirst] at hheld hresumed
  refine ⟨hitem, hheld, hresumed ?_, hasked, hfails (List.forall_mem_nil _)⟩
  simp [numberOffers, DialogStep.run]

end DialogScript
