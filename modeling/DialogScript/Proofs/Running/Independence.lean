import DialogScript.Dialog
import DialogScript.Proofs.Parsing.Streaming
import DialogScript.Proofs.Running.Bounds
import DialogScript.Proofs.Running.Programs

/-!
# Runs of one dialog do not interfere

The runs of a dialog share its variables and its trace. A step of a run reads and sets only the
variables that its statements mention (`step_alike`, `step_within`), and the trace is read by
nothing; so runs of scripts that mention different names do not notice each other. Whatever the
order in which a host starts, advances, answers and closes them, each run comes to what the same
steps come to on a dialog of its own, and leaves its own variables as it leaves them there
(`performAll_independent`).

The comparison with the dialog of its own is kept by `Follows`; what the other runs do is kept away
by `Avoids`.
-/

namespace DialogScript

/-! ### Names -/

namespace Expr

mutual

/-- The names that an expression mentions. -/
def names : Expr → List String
  | .variable name _ => [name]
  | .template parts _ => namesAll parts
  | .unary _ operand _ => names operand
  | .binary _ left right _ => names left ++ names right
  | _ => []

/-- The names that expressions mention. -/
def namesAll : List Expr → List String
  | [] => []
  | e :: rest => names e ++ namesAll rest

end

end Expr

namespace Stmt

mutual

/-- The names that a statement mentions. -/
def names : Stmt → List String
  | .assign name value _ => name :: value.names
  | .output value _ => value.names
  | .input name _ _ => [name]
  | .block body _ => namesAll body
  | .loop condition body _ => condition.names ++ names body
  | .choice first others otherwise _ => names first ++ namesAll others ++ names otherwise
  | .branch condition body _ => condition.names ++ names body
  | .expression e => e.names
  | .program body _ => namesAll body
  | .absent => []

/-- The names that statements mention. -/
def namesAll : List Stmt → List String
  | [] => []
  | s :: rest => names s ++ namesAll rest

end

private theorem subset_namesAll {ss : List Stmt} {s : Stmt} (h : s ∈ ss) :
    s.names ⊆ namesAll ss := by
  induction ss with
  | nil => cases h
  | cons first rest ih =>
    rw [namesAll]
    rcases List.mem_cons.mp h with rfl | h
    · exact List.subset_append_left _ _
    · exact List.subset_append_of_subset_right _ (ih h)

end Stmt

/-- The names that a script mentions before its first error. -/
def scriptNames (script : String) (digits : DigitLimit) : List String :=
  Stmt.namesAll (parseText script digits).items

/-- The names of a script whose tokens are those of some statements. -/
theorem scriptNames_of_grammar {digits : DigitLimit} {script : String} {ts : List Token}
    {ss : List Stmt} (htokens : tokensOf script = ⟨ts, none⟩)
    (h : Grammar.Program digits ts ss) : scriptNames script digits = Stmt.namesAll ss := by
  rw [scriptNames, parseText_of_grammar htokens h]

/-! ### Evaluation -/

/-- The variables with some names have the same values. -/
def Environment.AgreeOn (names : List String) (a b : Environment) : Prop :=
  ∀ x ∈ names, a.get? x = b.get? x

namespace Environment.AgreeOn

variable {names names' : List String} {a b : Environment}

theorem mono (h : AgreeOn names a b) (hsub : names' ⊆ names) : AgreeOn names' a b :=
  fun x hx => h x (hsub hx)

theorem set (h : AgreeOn names a b) (name : String) (v : Value) :
    AgreeOn names (a.set name v) (b.set name v) := by
  intro x hx
  rw [Environment.get?_set, Environment.get?_set, h x hx]

end Environment.AgreeOn

namespace Expr

open Environment (AgreeOn)

variable {a b : Environment}

mutual

/-- An expression looks only at the variables that it mentions. -/
theorem eval_of_agree {e : Expr} (h : Environment.AgreeOn e.names a b) :
    e.eval a = e.eval b := by
  match e with
  | .integer _ _ | .float _ _ | .boolean _ _ | .text _ _ | .foreign _ _ => rfl
  | .template parts _ => rw [eval, eval, evalParts_of_agree (h : AgreeOn (namesAll parts) a b)]
  | .variable name _ => rw [eval, eval, h name (by simp [names])]
  | .unary _ operand _ =>
    have hoperand : operand.eval a = operand.eval b := eval_of_agree h
    simp only [eval, hoperand]
  | .binary _ left right _ =>
    rw [eval, eval, eval_of_agree (h.mono (List.subset_append_left left.names right.names)),
      eval_of_agree (h.mono (List.subset_append_right left.names right.names))]

theorem evalParts_of_agree {parts : List Expr} (h : Environment.AgreeOn (namesAll parts) a b) :
    evalParts a parts = evalParts b parts := by
  match parts with
  | [] => rfl
  | e :: rest =>
    rw [evalParts, evalParts, eval_of_agree (h.mono (List.subset_append_left e.names _)),
      evalParts_of_agree (h.mono (List.subset_append_right e.names (namesAll rest)))]

end

private theorem evalCondition_of_agree {e : Expr} (h : Environment.AgreeOn e.names a b) :
    e.evalCondition a = e.evalCondition b := by
  rw [evalCondition, evalCondition, eval_of_agree h]

end Expr

/-! ### Steps of a run -/

/-- Two interpreters that runs over some names cannot tell apart. -/
structure Interpreter.Alike (names : List String) (i j : Interpreter) : Prop where
  limit : i.limit = j.limit
  environment : i.environment.AgreeOn names j.environment

namespace Run

/-- What a run has to do mentions only the given names. -/
structure Within (names : List String) (r : Run) : Prop where
  pending : ∀ s ∈ r.pending, s.names ⊆ names
  incoming : ∀ s ∈ r.incoming.items, s.names ⊆ names
  request : ∀ q, r.request = some q → q.name ∈ names

/-- Two steps that a run over some names cannot tell apart. -/
structure SameStep (names : List String) (s t : RunStep) : Prop where
  outcome : s.outcome = t.outcome
  run : s.run = t.run
  alike : s.interpreter.Alike names t.interpreter

/-- A step changes no variable beyond the given names, and leaves a run within them. -/
structure StepWithin (names : List String) (i : Interpreter) (s : RunStep) : Prop where
  run : s.run.Within names
  limit : s.interpreter.limit = i.limit
  environment : ∀ x, x ∉ names → s.interpreter.environment.get? x = i.environment.get? x

end Run

namespace Interpreter.Alike

variable {names : List String} {i j : Interpreter}

theorem refl (i : Interpreter) : Alike names i i := ⟨rfl, fun _ _ => rfl⟩

theorem symm (h : Alike names i j) : Alike names j i :=
  ⟨h.limit.symm, fun x hx => (h.environment x hx).symm⟩

theorem trans {k : Interpreter} (h : Alike names i j) (h' : Alike names j k) : Alike names i k :=
  ⟨h.limit.trans h'.limit, fun x hx => (h.environment x hx).trans (h'.environment x hx)⟩

theorem note (h : Alike names i j) (event : TraceEvent) :
    Alike names (i.note event) (j.note event) :=
  ⟨h.limit, h.environment⟩

theorem assign (h : Alike names i j) (name : String) (v : Value) :
    Alike names (i.assign name v) (j.assign name v) :=
  ⟨h.limit, h.environment.set name v⟩

private theorem withTraces (h : Alike names i j) (t u : Trace) :
    Alike names { i with trace := t } { j with trace := u } :=
  ⟨h.limit, h.environment⟩

end Interpreter.Alike

namespace Run

open Interpreter (Alike)

variable {names : List String} {i j : Interpreter} {r : Run}

private theorem chooseBranch_alike {branches : List Stmt} (h : Stmt.namesAll branches ⊆ names)
    (halike : Alike names i j) : (chooseBranch i branches).1 = (chooseBranch j branches).1 := by
  induction branches generalizing i j with
  | nil => rfl
  | cons first rest ih =>
    have hrest : Stmt.namesAll rest ⊆ names := List.Subset.trans (List.subset_append_right _ _) h
    cases first with
    | branch condition body span | loop condition body span =>
      have hcondition : condition.names ⊆ names := fun x hx => h (by simp [Stmt.namesAll,
        Stmt.names, hx])
      rw [chooseBranch, chooseBranch,
        Expr.evalCondition_of_agree (halike.environment.mono hcondition)]
      split
      · rfl
      · dsimp only
        split
        · rfl
        · exact ih hrest (halike.note _)
    | _ => rfl

/-- The statement that is fetched and the run without it are within the run's names. -/
theorem Within.fetch (h : r.Within names) {s : Stmt} {left : Run}
    (hfetch : r.fetch = .ok (some (s, left))) : s.names ⊆ names ∧ left.Within names := by
  rcases fetch_eq_some hfetch with ⟨rest, hpending, rfl⟩ | ⟨rest, -, hitems, rfl⟩
  · obtain ⟨hs, hrest⟩ := List.forall_mem_cons.mp (hpending ▸ h.pending)
    exact ⟨hs, hrest, h.incoming, h.request⟩
  · obtain ⟨hs, hrest⟩ := List.forall_mem_cons.mp (hitems ▸ h.incoming)
    exact ⟨hs, h.pending, hrest, h.request⟩

/-- Executing a statement comes to the same for interpreters that agree on the names in it. -/
theorem execute_alike {s : Stmt} (hs : s.names ⊆ names) (halike : Alike names i j) :
    SameStep names (execute i r s) (execute j r s) := by
  cases s with
  | output value span =>
    rw [execute, execute, Expr.eval_of_agree (halike.environment.mono hs)]
    split
    · exact ⟨rfl, rfl, halike⟩
    · exact ⟨rfl, rfl, halike.note _⟩
  | assign name value span =>
    have hvalue : value.names ⊆ names := List.Subset.trans (List.subset_cons_self _ _) hs
    rw [execute, execute, Expr.eval_of_agree (halike.environment.mono hvalue)]
    split
    · exact ⟨rfl, rfl, halike⟩
    · exact ⟨rfl, rfl, (halike.assign _ _).note _⟩
  | loop condition body span =>
    have hcondition : condition.names ⊆ names :=
      List.Subset.trans (List.subset_append_left _ _) hs
    rw [execute, execute, loopStep, loopStep,
      Expr.evalCondition_of_agree (halike.environment.mono hcondition), halike.limit]
    split
    · exact ⟨rfl, rfl, halike⟩
    · exact ⟨rfl, rfl, halike.note _⟩
    · dsimp only
      split
      · exact ⟨rfl, rfl, halike⟩
      · exact ⟨rfl, rfl, halike.note _⟩
  | choice first others otherwise span =>
    have hbranches : Stmt.namesAll (first :: others) ⊆ names :=
      List.Subset.trans (List.subset_append_left _ _) hs
    have hchosen := chooseBranch_alike hbranches halike
    obtain ⟨t, hi⟩ := chooseBranch_interpreter i (first :: others)
    obtain ⟨u, hj⟩ := chooseBranch_interpreter j (first :: others)
    have hafter := halike.withTraces t u
    rw [execute, execute]
    rcases hci : chooseBranch i (first :: others) with ⟨result, i'⟩
    rcases hcj : chooseBranch j (first :: others) with ⟨result', j'⟩
    rw [hci, hcj] at hchosen
    rw [hci] at hi
    rw [hcj] at hj
    obtain rfl : result = result' := hchosen
    obtain rfl : i' = _ := hi
    obtain rfl : j' = _ := hj
    cases result with
    | error e => exact ⟨rfl, rfl, hafter⟩
    | ok chosen =>
      dsimp only
      split <;> exact ⟨rfl, rfl, hafter⟩
  | input name form span =>
    rw [execute, execute]
    split
    · exact ⟨rfl, rfl, halike⟩
    · exact ⟨rfl, rfl, halike.note _⟩
  | block | branch | expression | program | absent => exact ⟨rfl, rfl, halike⟩

/-- A step of a run comes to the same for interpreters that agree on the run's names. -/
theorem step_alike (h : r.Within names) (halike : Alike names i j) :
    SameStep names (step i r) (step j r) := by
  unfold step
  split
  · exact ⟨rfl, rfl, halike⟩
  · unfold takeAnswer
    split
    · exact ⟨rfl, rfl, halike⟩
    · split
      · exact ⟨rfl, rfl, halike⟩
      · exact ⟨rfl, rfl, (halike.assign _ _).note _⟩
  · split
    · exact ⟨rfl, rfl, halike⟩
    · exact ⟨rfl, rfl, halike⟩
    · rename_i s left hfetch
      exact execute_alike (h.fetch hfetch).1 halike

theorem Within.quiet (h : r.Within names) (trace : Trace) (outcome : Outcome) :
    StepWithin names i ⟨outcome, { i with trace := trace }, r⟩ :=
  ⟨h, rfl, fun _ _ => rfl⟩

theorem Within.pushAll (h : r.Within names) (ss : List Stmt) (hs : Stmt.namesAll ss ⊆ names) :
    Within names { r with pending := ss ++ r.pending } := by
  refine ⟨fun s hmem => ?_, h.incoming, h.request⟩
  rcases List.mem_append.mp hmem with hmem | hmem
  · exact List.Subset.trans (Stmt.subset_namesAll hmem) hs
  · exact h.pending s hmem

private theorem get?_assign {name x : String} (hname : name ∈ names) (hx : x ∉ names) (v : Value) :
    (i.assign name v).environment.get? x = i.environment.get? x := by
  have hne : name ≠ x := by
    rintro rfl
    exact hx hname
  exact (Environment.get?_set _ _ _ _).trans (if_neg hne)

/-- The branch that is chosen, or what is done without one, is within the names of the choice. -/
theorem names_chosen {first otherwise : Stmt} {others : List Stmt} {span : Span}
    {chosen : Option Stmt} (h : (chooseBranch i (first :: others)).1 = .ok chosen)
    (hs : Stmt.names (.choice first others otherwise span) ⊆ names) :
    (chosen.getD otherwise).names ⊆ names := by
  cases chosen with
  | none => exact List.Subset.trans (List.subset_append_right _ _) hs
  | some body =>
    obtain ⟨condition, branchSpan, hmem⟩ := mem_of_chooseBranch h
    have hbody : body.names ⊆ Stmt.names (.branch condition body branchSpan) :=
      List.subset_append_right _ _
    have hall : Stmt.namesAll (first :: others) ⊆ names :=
      List.Subset.trans (List.subset_append_left _ _) hs
    exact List.Subset.trans hbody (List.Subset.trans (Stmt.subset_namesAll hmem) hall)

/-- Executing a statement changes only the variables that it mentions. -/
theorem execute_within {s : Stmt} (hs : s.names ⊆ names) (h : r.Within names) :
    StepWithin names i (execute i r s) := by
  cases s with
  | output value span =>
    rw [execute]
    split
    · exact h.quiet _ _
    · exact h.quiet _ _
  | assign name value span =>
    rw [execute]
    split
    · exact h.quiet _ _
    · exact ⟨h, rfl, fun x hx => get?_assign (hs (by simp [Stmt.names])) hx _⟩
  | block body span => exact ⟨h.pushAll body hs, rfl, fun _ _ => rfl⟩
  | loop condition body span =>
    have hloop : Stmt.namesAll [body, .loop condition body span] ⊆ names := by
      have hbody : body.names ⊆ names := List.Subset.trans (List.subset_append_right _ _) hs
      simp only [Stmt.namesAll, List.append_nil]
      exact List.append_subset.mpr ⟨hbody, hs⟩
    have hguards : ∀ guards, Within names { r with guards := guards } :=
      fun _ => ⟨h.pending, h.incoming, h.request⟩
    rw [execute, loopStep]
    split
    · exact h.quiet _ _
    · exact (hguards _).quiet _ _
    · dsimp only
      split
      · exact (hguards _).quiet _ _
      · exact ((hguards _).pushAll _ hloop).quiet _ _
  | choice first others otherwise span =>
    obtain ⟨trace, htrace⟩ := chooseBranch_interpreter i (first :: others)
    rw [execute]
    split
    · rename_i i' heq
      rw [heq] at htrace
      obtain rfl : i' = _ := htrace
      exact h.quiet _ _
    · rename_i chosen i' heq
      rw [heq] at htrace
      obtain rfl : i' = _ := htrace
      have hnames := names_chosen (by rw [heq]) hs
      split
      · exact h.quiet _ _
      · refine (h.pushAll [chosen.getD otherwise] ?_).quiet _ _
        simpa [Stmt.namesAll] using hnames
  | input name form span =>
    rw [execute]
    split
    · exact h.quiet _ _
    · refine ⟨⟨h.pending, h.incoming, ?_⟩, rfl, fun _ _ => rfl⟩
      rintro q ⟨⟩
      exact hs (by simp [Stmt.names, Request.fresh])
  | branch | expression | program | absent => exact h.quiet _ _

/-- A step of a run changes only the variables that the run mentions. -/
theorem step_within (h : r.Within names) : StepWithin names i (step i r) := by
  unfold step
  split
  · exact h.quiet _ _
  · have hactive : Within names { r with stage := .active } := ⟨h.pending, h.incoming, h.request⟩
    unfold takeAnswer
    split
    · exact hactive.quiet _ _
    · rename_i request hrequest
      split
      · exact h.quiet _ _
      · exact ⟨hactive, rfl, fun x hx => get?_assign (h.request request hrequest) hx _⟩
  · split
    · exact h.quiet _ _
    · exact h.quiet _ _
    · rename_i hfetch
      obtain ⟨hs, hleft⟩ := h.fetch hfetch
      exact execute_within hs hleft

/-! ### Runs between items -/

private theorem advance_alike (budget : Nat) (h : r.Within names) (halike : Alike names i j) :
    SameStep names (advance budget i r) (advance budget j r) := by
  induction budget generalizing i j r with
  | zero => exact ⟨rfl, rfl, halike⟩
  | succ budget ih =>
    have hwithin : StepWithin names i (step i r) := step_within h
    obtain ⟨houtcome, hrun, hafter⟩ := step_alike h halike
    rw [advance, advance]
    rcases hi : step i r with ⟨outcome, i', r'⟩
    rcases hj : step j r with ⟨outcome', j', r''⟩
    rw [hi, hj] at houtcome hrun hafter
    rw [hi] at hwithin
    obtain rfl : outcome = outcome' := houtcome
    obtain rfl : r' = r'' := hrun
    cases outcome with
    | quiet => exact ih hwithin.run hafter
    | item | done | failed => exact ⟨rfl, rfl, hafter⟩

private theorem advance_within (budget : Nat) (h : r.Within names) :
    StepWithin names i (advance budget i r) := by
  induction budget generalizing i r with
  | zero => exact h.quiet _ _
  | succ budget ih =>
    have hwithin : StepWithin names i (step i r) := step_within h
    rw [advance]
    rcases hi : step i r with ⟨outcome, i', r'⟩
    rw [hi] at hwithin
    cases outcome with
    | quiet =>
      obtain ⟨hrun, hlimit, henv⟩ := ih (i := i') hwithin.run
      exact ⟨hrun, hlimit.trans hwithin.limit,
        fun x hx => (henv x hx).trans (hwithin.environment x hx)⟩
    | item | done | failed => exact hwithin

/-- To begin a run changes of the interpreter only the trace. -/
theorem start_interpreter (i : Interpreter) (r : Run) :
    ∃ trace, (start i r).1 = { i with trace := trace } := by
  unfold start
  split <;> exact ⟨_, rfl⟩

private theorem start_run (i j : Interpreter) (r : Run) : (start i r).2 = (start j r).2 := by
  unfold start
  split <;> rfl

theorem Within.start (h : r.Within names) (i : Interpreter) : (start i r).2.Within names := by
  unfold Run.start
  split
  · exact ⟨h.pending, h.incoming, h.request⟩
  · exact h

/-- To end a run changes its stage and the trace. -/
theorem close_eq (i : Interpreter) (r : Run) :
    ∃ trace, close i r = ({ i with trace := trace }, { r with stage := .ended }) := by
  unfold close
  split
  · rename_i hstage
    exact ⟨i.trace, by rw [← hstage]⟩
  · exact ⟨i.trace, rfl⟩
  · exact ⟨_, rfl⟩

private theorem close_alike (halike : Alike names i j) (r : Run) :
    (close i r).2 = (close j r).2 ∧ Alike names (close i r).1 (close j r).1 := by
  obtain ⟨t, hi⟩ := close_eq i r
  obtain ⟨u, hj⟩ := close_eq j r
  rw [hi, hj]
  exact ⟨rfl, halike.withTraces t u⟩

theorem Within.close (h : r.Within names) (i : Interpreter) : (close i r).2.Within names := by
  obtain ⟨trace, htrace⟩ := close_eq i r
  rw [htrace]
  exact ⟨h.pending, h.incoming, h.request⟩

/-- A run is taken to the same item or end by interpreters that agree on its names. -/
theorem next_alike (budget : Nat) (h : r.Within names) (halike : Alike names i j) :
    SameStep names (next budget i r) (next budget j r) := by
  have hwithin := h.start i
  have hsame := start_run i j r
  obtain ⟨t, hi⟩ := start_interpreter i r
  obtain ⟨u, hj⟩ := start_interpreter j r
  rw [next, next]
  rcases hstart : start i r with ⟨i₁, r₁⟩
  rcases hstart' : start j r with ⟨j₁, r₂⟩
  rw [hstart] at hi hsame hwithin
  rw [hstart'] at hj hsame
  obtain rfl : i₁ = _ := hi
  obtain rfl : j₁ = _ := hj
  obtain rfl : r₁ = r₂ := hsame
  obtain ⟨houtcome, hrun, hafter⟩ := advance_alike budget hwithin (halike.withTraces t u)
  dsimp only
  rcases hadvance : advance budget { i with trace := t } r₁ with ⟨outcome, i', r'⟩
  rcases hadvance' : advance budget { j with trace := u } r₁ with ⟨outcome', j', r''⟩
  rw [hadvance, hadvance'] at houtcome hrun hafter
  obtain rfl : outcome = outcome' := houtcome
  obtain rfl : r' = r'' := hrun
  cases outcome with
  | quiet | item => exact ⟨rfl, rfl, hafter⟩
  | done | failed =>
    obtain ⟨hclosed, hends⟩ := close_alike hafter r'
    exact ⟨rfl, hclosed, hends⟩

/-- Taking a run to its next item or its end changes only the variables that it mentions. -/
theorem next_within (budget : Nat) (h : r.Within names) :
    StepWithin names i (next budget i r) := by
  obtain ⟨t, hi⟩ := start_interpreter i r
  obtain ⟨hrun, hlimit, henv⟩ :=
    advance_within budget (h.start i) (i := (Run.start i r).1)
  rw [next]
  dsimp only
  rcases hadvance : advance budget (start i r).1 (start i r).2 with ⟨outcome, i', r'⟩
  rw [hadvance] at hrun hlimit henv
  rw [hi] at hlimit henv
  cases outcome with
  | quiet | item => exact ⟨hrun, hlimit, henv⟩
  | done | failed =>
    obtain ⟨trace, htrace⟩ := close_eq i' r'
    have hclosed := Within.close hrun i'
    dsimp only
    rw [htrace] at hclosed ⊢
    exact ⟨hclosed, hlimit, henv⟩

theorem Within.give (h : r.Within names) {request : Request} {value : HostValue} {r' : Run}
    (hrequest : r.request = some request) (hgive : r.give request value = .ok r') :
    r'.Within names := by
  obtain ⟨filled, hfilled, hr'⟩ := bind_eq_ok.mp hgive
  obtain rfl := pure_eq_ok.mp hr'
  refine ⟨h.pending, h.incoming, ?_⟩
  rintro q ⟨⟩
  rw [(give_eq_ok hfilled).1]
  exact h.request request hrequest

/-- A run of a script mentions what the script mentions. -/
theorem within_ofText (source : Source) {script : String} {digits : DigitLimit}
    (h : scriptNames script digits ⊆ names) : (ofText source script digits).Within names := by
  refine ⟨List.forall_mem_nil _, fun s hs => ?_, by rintro q ⟨⟩⟩
  exact List.Subset.trans (Stmt.subset_namesAll hs) h

end Run

/-! ### Dialogs -/

namespace DialogStep

/-- The name of the run that a step is about. -/
def run : DialogStep → String
  | .start name _ => name
  | .next name => name
  | .give name _ => name
  | .close name => name

/-- Whether a step starts a run under a name. -/
def begins (name : String) : DialogStep → Bool
  | .start other _ => other == name
  | _ => false

/-- The names that the script of a started run mentions. -/
def names (digits : DigitLimit) : DialogStep → List String
  | .start _ script => scriptNames script digits
  | _ => []

/-- How many steps the script of a started run takes at most. -/
def stepBound (digits : DigitLimit) (limit : Nat) : DialogStep → Nat
  | .start _ script => Stmt.stepBoundAll limit (parseText script digits).items
  | _ => 0

end DialogStep

/-- What the host is told of an outcome of a run of a source. -/
def Outcome.reply (source : Source) : Outcome → DialogReply
  | .quiet => .interrupted
  | .item given => .item given
  | .done => .ended
  | .failed e => .failed source e

/-- A host that is given an item is given the one that the run comes to. -/
theorem Outcome.eq_item_of_reply {source : Source} {outcome : Outcome} {given : Item}
    (h : outcome.reply source = .item given) : outcome = .item given := by
  cases outcome with
  | item other => exact congrArg Outcome.item (DialogReply.item.inj h)
  | quiet | done | failed => cases h

namespace Dialog

variable {names : List String} {d : Dialog}

/-- The run under a name mentions none of the given names. -/
def Avoids (names : List String) (d : Dialog) (name : String) : Prop :=
  ∀ r, d.run? name = some r → ∃ own, r.Within own ∧ names.Disjoint own

/-- To take the run with a name further is to take the run further and to put it back. -/
theorem perform_next {name : String} {r : Run} (h : d.run? name = some r) (budget : Nat) :
    let taken := Run.next budget d.interpreter r
    d.perform budget (.next name) = (taken.outcome.reply taken.run.source,
      { d with interpreter := taken.interpreter }.putRun name taken.run) := by
  intro taken
  rw [perform, advanceRun, h]
  dsimp only
  cases (Run.next budget d.interpreter r).outcome <;> rfl

theorem perform_next_of_none {name : String} (h : d.run? name = none) (budget : Nat) :
    d.perform budget (.next name) = (.ended, d) := by
  rw [perform, advanceRun, h]

/-- What comes of giving a value: there is no request, the request refuses the value and nothing
changes, or it takes it. -/
theorem perform_give_cases (budget : Nat) (d : Dialog) (name : String) (value : HostValue) :
    d.perform budget (.give name value) = (.noRequest, d) ∨
    (∃ source e, d.perform budget (.give name value) = (.failed source e, d)) ∨
    ∃ r request after, d.run? name = some r ∧ r.request = some request ∧
      r.give request value = .ok after ∧
      d.perform budget (.give name value) = (.given, d.putRun name after) := by
  rw [perform, giveRun]
  cases hrun : d.run? name with
  | none => exact .inl rfl
  | some r =>
    cases hrequest : r.request with
    | none =>
      refine .inl ?_
      simp only [hrequest]
    | some request =>
      dsimp only
      rw [hrequest]
      dsimp only
      cases hgive : r.give request value with
      | error e => exact .inr (.inl ⟨r.source, .runtime e, rfl⟩)
      | ok after => exact .inr (.inr ⟨r, request, after, rfl, hrequest, hgive, rfl⟩)

private theorem run?_closeRun_of_ne (d : Dialog) {name other : String} (h : other ≠ name) :
    (d.closeRun name).run? other = d.run? other := by
  unfold closeRun
  split
  · rfl
  · exact run?_putRun_of_ne _ _ h

theorem digits_putRun (d : Dialog) (name : String) (r : Run) :
    (d.putRun name r).digits = d.digits := rfl

theorem digits_closeRun (d : Dialog) (name : String) : (d.closeRun name).digits = d.digits := by
  unfold closeRun
  split <;> rfl

/-- A step changes nothing about which numerals can be read. -/
theorem digits_perform (budget : Nat) (d : Dialog) (st : DialogStep) :
    (d.perform budget st).2.digits = d.digits := by
  cases st with
  | start name script => exact digits_closeRun d name
  | next name =>
    cases hrun : d.run? name with
    | none => rw [perform_next_of_none hrun]
    | some r =>
      rw [perform_next hrun]
      rfl
  | give name value =>
    rcases perform_give_cases budget d name value with
      hnone | ⟨_, _, hfailed⟩ | ⟨_, _, _, -, -, -, hgiven⟩
    · rw [hnone]
    · rw [hfailed]
    · rw [hgiven]
      rfl
  | close name => exact digits_closeRun d name

/-- A step leaves the runs under other names as they are. -/
theorem run?_perform_of_ne (budget : Nat) (d : Dialog) (st : DialogStep) {other : String}
    (h : other ≠ st.run) : (d.perform budget st).2.run? other = d.run? other := by
  cases st with
  | start name script =>
    exact (run?_putRun_of_ne _ _ h).trans (run?_closeRun_of_ne d h)
  | next name =>
    cases hrun : d.run? name with
    | none => rw [perform_next_of_none hrun]
    | some r =>
      rw [perform_next hrun]
      exact run?_putRun_of_ne _ _ h
  | give name value =>
    rcases perform_give_cases budget d name value with
      hnone | ⟨_, _, hfailed⟩ | ⟨_, _, _, -, -, -, hgiven⟩
    · rw [hnone]
    · rw [hfailed]
    · rw [hgiven]
      exact run?_putRun_of_ne _ _ h
  | close name => exact run?_closeRun_of_ne d h

/-- To end a run changes of the interpreter only the trace. -/
theorem closeRun_interpreter (d : Dialog) (name : String) :
    ∃ trace, (d.closeRun name).interpreter = { d.interpreter with trace := trace } := by
  unfold closeRun
  split
  · exact ⟨_, rfl⟩
  · rename_i r _
    obtain ⟨trace, htrace⟩ := Run.close_eq d.interpreter r
    rw [htrace]
    exact ⟨trace, rfl⟩

/-- The run that `closeRun` leaves is the run that was there, ended. -/
theorem run?_closeRun_self (d : Dialog) (name : String) :
    (d.closeRun name).run? name = (d.run? name).map fun r => { r with stage := .ended } := by
  unfold closeRun
  split
  · rename_i hrun
    rw [hrun]
    rfl
  · rename_i r hrun
    obtain ⟨trace, htrace⟩ := Run.close_eq d.interpreter r
    rw [htrace, hrun]
    exact run?_putRun_self _ _ _

private theorem alike_closeRun (names : List String) (d : Dialog) (name : String) :
    d.interpreter.Alike names (d.closeRun name).interpreter := by
  obtain ⟨trace, htrace⟩ := closeRun_interpreter d name
  rw [htrace]
  exact ⟨rfl, fun _ _ => rfl⟩

/-- To start a run changes no variable, and the run mentions what its script mentions. -/
theorem perform_start (budget : Nat) (d : Dialog) (name script : String) (names : List String) :
    (d.perform budget (.start name script)).2.run? name
        = some (Run.ofText (.inline script) script d.digits) ∧
      d.interpreter.Alike names (d.perform budget (.start name script)).2.interpreter :=
  ⟨run?_putRun_self _ _ _, alike_closeRun names d name⟩

/-- A step about a run that mentions none of some names changes none of these variables. -/
theorem perform_avoids (budget : Nat) {st : DialogStep} (h : d.Avoids names st.run)
    (hst : names.Disjoint (st.names d.digits)) :
    (d.perform budget st).2.Avoids names st.run ∧
      d.interpreter.Alike names (d.perform budget st).2.interpreter := by
  cases st with
  | start name script =>
    obtain ⟨hrun, halike⟩ := perform_start budget d name script names
    refine ⟨fun r hr => ⟨scriptNames script d.digits, ?_, hst⟩, halike⟩
    obtain rfl := Option.some.inj (hrun.symm.trans hr)
    exact Run.within_ofText _ (List.Subset.refl _)
  | next name =>
    cases hrun : d.run? name with
    | none =>
      rw [perform_next_of_none hrun]
      exact ⟨h, .refl _⟩
    | some r =>
      obtain ⟨own, hwithin, hdisjoint⟩ := h r hrun
      obtain ⟨hafter, hlimit, henv⟩ :=
        Run.next_within budget hwithin (i := d.interpreter)
      rw [perform_next hrun]
      refine ⟨fun r' hr' => ⟨own, ?_, hdisjoint⟩,
        hlimit.symm, fun x hx => (henv x (hdisjoint hx)).symm⟩
      obtain rfl := Option.some.inj ((run?_putRun_self _ _ _).symm.trans hr')
      exact hafter
  | give name value =>
    rcases perform_give_cases budget d name value with
      hnone | ⟨_, _, hfailed⟩ | ⟨r, request, after, hrun, hrequest, hgive, hgiven⟩
    · rw [hnone]
      exact ⟨h, .refl _⟩
    · rw [hfailed]
      exact ⟨h, .refl _⟩
    · rw [hgiven]
      refine ⟨fun r' hr' => ?_, .refl _⟩
      obtain rfl := Option.some.inj ((run?_putRun_self _ _ _).symm.trans hr')
      obtain ⟨own, hwithin, hdisjoint⟩ := h r hrun
      exact ⟨own, hwithin.give hrequest hgive, hdisjoint⟩
  | close name =>
    refine ⟨fun r hr => ?_, alike_closeRun names d name⟩
    obtain ⟨r₀, hr₀, rfl⟩ := Option.map_eq_some_iff.mp ((run?_closeRun_self d name).symm.trans hr)
    obtain ⟨own, hwithin, hdisjoint⟩ := h r₀ hr₀
    exact ⟨own, ⟨hwithin.pending, hwithin.incoming, hwithin.request⟩, hdisjoint⟩

private theorem avoids_perform_of_ne (budget : Nat) {st : DialogStep} {other : String}
    (hne : other ≠ st.run) (h : d.Avoids names other) :
    (d.perform budget st).2.Avoids names other := by
  intro r hr
  rw [run?_perform_of_ne budget d st hne] at hr
  exact h r hr

/-- Steps about runs that mention none of some names change none of these variables. -/
theorem performAll_avoids (budget : Nat) {steps : List DialogStep}
    (h : ∀ name, d.Avoids names name)
    (hsteps : ∀ st ∈ steps, names.Disjoint (st.names d.digits)) :
    (∀ name, (d.performAll budget steps).2.Avoids names name) ∧
      d.interpreter.Alike names (d.performAll budget steps).2.interpreter := by
  induction steps generalizing d with
  | nil => exact ⟨h, .refl _⟩
  | cons st rest ih =>
    obtain ⟨hst, hrest⟩ := List.forall_mem_cons.mp hsteps
    obtain ⟨hself, halike⟩ := perform_avoids budget (h st.run) hst
    have hafter : ∀ name, (d.perform budget st).2.Avoids names name := by
      intro name
      by_cases hname : name = st.run
      · exact hname ▸ hself
      · exact avoids_perform_of_ne budget hname (h name)
    obtain ⟨hlast, halikeRest⟩ := ih hafter (by rwa [digits_perform])
    exact ⟨hlast, halike.trans halikeRest⟩

/-! ### A run and its dialog alone -/

/-- A dialog in which a run is as in a dialog of its own. -/
structure Follows (names : List String) (name : String) (d alone : Dialog) : Prop where
  run : d.run? name = alone.run? name
  within : ∀ r, d.run? name = some r → r.Within names
  alike : d.interpreter.Alike names alone.interpreter

variable {name : String} {alone : Dialog}

/-- A step about the run comes to the same in its own dialog. -/
theorem Follows.perform (budget : Nat) (h : Follows names name d alone) {st : DialogStep}
    (hname : st.run = name) (hst : st.begins name = false) :
    (d.perform budget st).1 = (alone.perform budget st).1 ∧
      Follows names name (d.perform budget st).2 (alone.perform budget st).2 := by
  subst hname
  cases st with
  | start other script => simp [DialogStep.begins, DialogStep.run] at hst
  | next other =>
    have hsame := h.run
    simp only [DialogStep.run] at hsame h ⊢
    cases hrun : d.run? other with
    | none =>
      rw [perform_next_of_none hrun, perform_next_of_none (hsame.symm.trans hrun)]
      exact ⟨rfl, h⟩
    | some r =>
      obtain ⟨hwithin, -, -⟩ := Run.next_within budget (h.within r hrun) (i := d.interpreter)
      obtain ⟨houtcome, hafter, halike⟩ := Run.next_alike budget (h.within r hrun) h.alike
      rw [perform_next hrun, perform_next (hsame.symm.trans hrun), ← houtcome, ← hafter]
      refine ⟨rfl, ?_, fun r' hr' => ?_, halike⟩
      · rw [run?_putRun_self, run?_putRun_self]
      · obtain rfl := Option.some.inj ((run?_putRun_self _ _ _).symm.trans hr')
        exact hwithin
  | give other value =>
    have hsame := h.run
    rw [Dialog.perform, Dialog.perform, giveRun, giveRun]
    simp only [DialogStep.run] at hsame h ⊢
    rw [← hsame]
    split
    · exact ⟨rfl, h⟩
    · rename_i r hr
      split
      · exact ⟨rfl, h⟩
      · rename_i request hrequest
        split
        · rename_i after hgive
          refine ⟨rfl, ?_, fun r₁ hr₁ => ?_, h.alike⟩
          · rw [run?_putRun_self, run?_putRun_self]
          · obtain rfl := Option.some.inj ((run?_putRun_self _ _ _).symm.trans hr₁)
            exact (h.within r hr).give hrequest hgive
        · exact ⟨rfl, h⟩
  | close other =>
    refine ⟨rfl, ?_, fun r hr => ?_, ?_⟩
    · exact (run?_closeRun_self d other).trans
        ((congrArg _ h.run).trans (run?_closeRun_self alone other).symm)
    · obtain ⟨r₀, hr₀, rfl⟩ :=
        Option.map_eq_some_iff.mp ((run?_closeRun_self d other).symm.trans hr)
      have hwithin := h.within r₀ hr₀
      exact ⟨hwithin.pending, hwithin.incoming, hwithin.request⟩
    · exact ((alike_closeRun names d other).symm.trans h.alike).trans
        (alike_closeRun names alone other)

/-- What a host did with a dialog, with what came of it. -/
abbrev History := List (DialogStep × DialogReply)

/-- Does steps in order and gives them with their replies. -/
def history (budget : Nat) (d : Dialog) (steps : List DialogStep) : History :=
  steps.zip (d.performAll budget steps).1

/-- What was done under a name until another run takes the name. -/
def underName (name : String) (later : History) : History :=
  (later.takeWhile fun entry => !entry.1.begins name).filter fun entry => entry.1.run == name

/-- The part of a history that is about one run. The history begins with the start of the run. -/
def ofRun (name : String) : History → History
  | [] => []
  | first :: later => first :: underName name later

/-- A history is what its steps come to on another dialog, and some variables end up as there. -/
structure Repeats (budget : Nat) (alone : Dialog) (own : History) (names : List String)
    (env : Environment) : Prop where
  replies : (alone.performAll budget (own.map Prod.fst)).1 = own.map Prod.snd
  environment : env.AgreeOn names (alone.performAll budget (own.map Prod.fst)).2.environment

theorem performAll_cons (budget : Nat) (d : Dialog) (st : DialogStep) (rest : List DialogStep) :
    d.performAll budget (st :: rest)
      = ((d.perform budget st).1 :: ((d.perform budget st).2.performAll budget rest).1,
        ((d.perform budget st).2.performAll budget rest).2) := rfl

theorem performAll_append (budget : Nat) (d : Dialog) (first second : List DialogStep) :
    d.performAll budget (first ++ second)
      = ((d.performAll budget first).1
          ++ ((d.performAll budget first).2.performAll budget second).1,
        ((d.performAll budget first).2.performAll budget second).2) := by
  induction first generalizing d with
  | nil => rfl
  | cons st rest ih =>
    rw [List.cons_append, performAll_cons, performAll_cons, ih]
    rfl

private theorem digits_performAll (budget : Nat) (d : Dialog) (steps : List DialogStep) :
    (d.performAll budget steps).2.digits = d.digits := by
  induction steps generalizing d with
  | nil => rfl
  | cons st rest ih => rw [performAll_cons, ih, digits_perform]

private theorem length_performAll (budget : Nat) (d : Dialog) (steps : List DialogStep) :
    (d.performAll budget steps).1.length = steps.length := by
  induction steps generalizing d with
  | nil => rfl
  | cons st rest ih => rw [performAll, List.length_cons, ih, List.length_cons]

/-- What happens after some steps is the history of the rest, from the dialog that they left. -/
theorem drop_history (budget : Nat) (d : Dialog) (before later : List DialogStep) :
    (d.history budget (before ++ later)).drop before.length
      = (d.performAll budget before).2.history budget later := by
  rw [history, performAll_append, List.zip_append (length_performAll budget d before).symm]
  exact List.drop_left' (by simp [length_performAll])

/-- A run that is as in its own dialog stays so while other runs leave its names alone: what is done
with it comes to the same there, and its variables end up the same. -/
theorem Follows.performAll (budget : Nat) (h : Follows names name d alone) {later : List DialogStep}
    (hothers : ∀ other, other ≠ name → d.Avoids names other)
    (hlater : ∀ st ∈ later, names.Disjoint (st.names d.digits)) :
    Repeats budget alone (underName name (d.history budget later)) names
      (d.performAll budget later).2.environment := by
  induction later generalizing d alone with
  | nil => exact ⟨rfl, h.alike.environment⟩
  | cons st rest ih =>
    obtain ⟨hst, hrest⟩ := List.forall_mem_cons.mp hlater
    rw [← digits_perform budget d st] at hrest
    have hhistory : d.history budget (st :: rest)
        = (st, (d.perform budget st).1) :: (d.perform budget st).2.history budget rest := rfl
    have hothers' : ∀ other, other ≠ name → (d.perform budget st).2.Avoids names other := by
      intro other hne
      by_cases hother : other = st.run
      · exact hother ▸ (perform_avoids budget (hother ▸ hothers other hne) hst).1
      · exact avoids_perform_of_ne budget hother (hothers other hne)
    rw [hhistory, performAll_cons]
    by_cases hbegins : st.begins name = true
    · -- Another run takes the name; from here on no run mentions the names of the first.
      have hown : underName name ((st, (d.perform budget st).1)
          :: (d.perform budget st).2.history budget rest) = [] := by
        simp [underName, hbegins]
      rw [hown]
      refine ⟨rfl, ?_⟩
      cases st with
      | start other script =>
        obtain rfl : other = name := by simpa [DialogStep.begins] using hbegins
        obtain ⟨hrun, halike⟩ := perform_start budget d other script names
        have hall : ∀ m, (d.perform budget (.start other script)).2.Avoids names m := by
          intro m
          by_cases hm : m = other
          · subst hm
            intro r hr
            obtain rfl := Option.some.inj (hrun.symm.trans hr)
            exact ⟨_, Run.within_ofText _ (List.Subset.refl _), hst⟩
          · exact hothers' m hm
        obtain ⟨-, hrestAlike⟩ := performAll_avoids budget hall hrest
        exact ((halike.trans hrestAlike).symm.trans h.alike).environment
      | next | give | close => cases hbegins
    · have hstays : st.begins name = false := by simpa using hbegins
      by_cases hname : st.run = name
      · obtain ⟨hreply, hfollows⟩ := h.perform budget hname hstays
        obtain ⟨hreplies, hagree⟩ := ih hfollows hothers' hrest
        have hown : underName name ((st, (d.perform budget st).1)
            :: (d.perform budget st).2.history budget rest)
            = (st, (d.perform budget st).1)
              :: underName name ((d.perform budget st).2.history budget rest) := by
          simp [underName, hstays, hname]
        rw [hown]
        refine ⟨?_, hagree⟩
        rw [List.map_cons, List.map_cons, performAll_cons, hreplies, hreply]
      · -- Another run does a step, which the run does not notice.
        have hown : underName name ((st, (d.perform budget st).1)
            :: (d.perform budget st).2.history budget rest)
            = underName name ((d.perform budget st).2.history budget rest) := by
          simp [underName, hstays, hname]
        obtain ⟨-, halike⟩ := perform_avoids budget (hothers st.run hname) hst
        have hrun := run?_perform_of_ne budget d st (Ne.symm hname)
        rw [hown]
        refine ih ⟨hrun.trans h.run, fun r hr => ?_, halike.symm.trans h.alike⟩ hothers' hrest
        exact h.within r (hrun.symm.trans hr)

/-- A run that is started where no other run mentions its names comes to what it comes to in a
dialog of its own. -/
theorem start_follows (budget : Nat) {i : Interpreter} {script : String} (trace : Trace)
    {digits : DigitLimit} (hdigits : d.digits = digits)
    (hothers : ∀ other, d.Avoids (scriptNames script digits) other)
    (halike : i.Alike (scriptNames script digits) d.interpreter) {later : List DialogStep}
    (hlater : ∀ st ∈ later, (scriptNames script digits).Disjoint (st.names digits)) :
    Repeats budget (ofInterpreter { i with trace := trace } digits)
      (ofRun name (d.history budget (.start name script :: later))) (scriptNames script digits)
      (d.performAll budget (.start name script :: later)).2.environment := by
  subst hdigits
  obtain ⟨hrun, hself⟩ := perform_start budget d name script (scriptNames script d.digits)
  obtain ⟨hrunAlone, hselfAlone⟩ := perform_start budget
    (ofInterpreter { i with trace := trace } d.digits) name script (scriptNames script d.digits)
  have hfollows : Follows (scriptNames script d.digits) name
      (d.perform budget (.start name script)).2
      ((ofInterpreter { i with trace := trace } d.digits).perform budget
        (.start name script)).2 := by
    refine ⟨hrun.trans hrunAlone.symm, fun r hr => ?_, ?_⟩
    · obtain rfl := Option.some.inj (hrun.symm.trans hr)
      exact Run.within_ofText _ (List.Subset.refl _)
    · exact (hself.symm.trans (halike.symm.withTraces d.interpreter.trace trace)).trans hselfAlone
  have hothers' : ∀ other, other ≠ name →
      (d.perform budget (.start name script)).2.Avoids (scriptNames script d.digits) other :=
    fun other hne => avoids_perform_of_ne budget hne (hothers other)
  obtain ⟨hreplies, hagree⟩ := hfollows.performAll budget hothers' (by rwa [digits_perform])
  have hown : ofRun name (d.history budget (.start name script :: later))
      = (.start name script, .started) :: underName name
        ((d.perform budget (.start name script)).2.history budget later) := rfl
  rw [hown]
  refine ⟨?_, hagree⟩
  rw [List.map_cons, List.map_cons, performAll_cons, hreplies]
  rfl

end Dialog

/-! ### Budgets -/

/-- A run that takes at most a given number of steps from here on. -/
inductive Run.Bounded (limit bound : Nat) (r : Run) : Prop
  | fresh (hstage : r.stage = .fresh) (h : Kept limit { r with stage := .active } [])
      (hle : stepsAhead limit { r with stage := .active } [] ≤ bound)
  | going {entries : List Nat} (h : Kept limit r entries)
      (hle : stepsAhead limit r entries ≤ bound)
  | ended (hstage : r.stage = .ended)

namespace Run

variable {limit bound : Nat} {i : Interpreter} {r : Run}

private theorem bounded_ofText (limit : Nat) (source : Source) {script : String}
    {digits : DigitLimit}
    (h : Stmt.stepBoundAll limit (parseText script digits).items ≤ bound) :
    Bounded limit bound (ofText source script digits) := by
  have hapart := (runnableAll_parseText script digits).loopsApart
  refine .fresh rfl (kept_start limit default source hapart) ?_
  exact Nat.le_trans (Nat.le_of_eq (stepsAhead_start limit default source _)) h

private theorem close_bounded (hlimit : i.limit = limit) (r : Run) :
    (close i r).1.limit = limit ∧ Bounded limit bound (close i r).2 := by
  obtain ⟨trace, htrace⟩ := close_eq i r
  rw [htrace]
  exact ⟨hlimit, .ended rfl⟩

/-- A run that goes on with its steps ahead is taken to an item or to its end. -/
theorem Kept.next {budget : Nat} {i' : Interpreter} {r' : Run} {entries : List Nat}
    (hstart : start i r = (i', r')) (h : Kept limit r' entries)
    (hle : stepsAhead limit r' entries ≤ bound) (hlimit : i'.limit = limit)
    (hbudget : bound < budget) :
    (next budget i r).outcome ≠ .quiet ∧ (next budget i r).interpreter.limit = limit ∧
      Bounded limit bound (next budget i r).run := by
  obtain ⟨houtcome, hlast, hitem⟩ := h.advance_ends hlimit (Nat.lt_of_le_of_lt hle hbudget)
  rw [Run.next, hstart]
  dsimp only
  rcases hadvance : advance budget i' r' with ⟨outcome, i₁, r₁⟩
  rw [hadvance] at houtcome hlast hitem
  cases outcome with
  | quiet => exact absurd rfl houtcome
  | item item =>
    obtain ⟨counts, hcounts, hless⟩ := hitem item rfl
    exact ⟨by simp, hlast, .going hcounts (Nat.le_trans hless hle)⟩
  | done | failed =>
    obtain ⟨hclosed, hbounded⟩ := close_bounded hlast r₁
    exact ⟨by simp, hclosed, hbounded⟩

/-- With a budget beyond its bound a run is taken to an item or to its end. -/
theorem Bounded.next {budget : Nat} (h : Bounded limit bound r) (hlimit : i.limit = limit)
    (hbudget : bound < budget) :
    (next budget i r).outcome ≠ .quiet ∧ (next budget i r).interpreter.limit = limit ∧
      Bounded limit bound (next budget i r).run := by
  cases h with
  | fresh hstage h hle =>
    have hstart : start i r = ({ i with trace := i.trace.start }, { r with stage := .active }) := by
      rw [start, hstage]
    exact Kept.next hstart h hle hlimit hbudget
  | going h hle =>
    have hstart : start i r = (i, r) := by
      unfold start
      split
      · exact absurd ‹_› h.begun
      · rfl
    exact Kept.next hstart h hle hlimit hbudget
  | ended hstage =>
    obtain ⟨more, rfl⟩ : ∃ more, budget = more + 1 := ⟨budget - 1, by omega⟩
    have hnext : Run.next (more + 1) i r = ⟨.done, (close i r).1, (close i r).2⟩ := by
      simp only [Run.next, start, hstage, advance, step]
    rw [hnext]
    exact ⟨by simp, close_bounded hlimit r⟩

theorem Bounded.asking (h : Bounded limit bound r) (request : Option Request) :
    Bounded limit bound (r.asking request) := by
  cases h with
  | fresh hstage h hle => exact .fresh hstage (h.asking request) hle
  | going h hle => exact .going (h.asking request) hle
  | ended hstage => exact .ended hstage

end Run

namespace Dialog

variable {limit bound : Nat} {d : Dialog}

/-- A dialog in which every run takes at most a given number of steps from here on. -/
structure Bounded (limit bound : Nat) (d : Dialog) : Prop where
  interpreter : d.interpreter.limit = limit
  runs : ∀ name r, d.run? name = some r → r.Bounded limit bound

theorem Bounded.putRun (h : Bounded limit bound d) {i : Interpreter} (hlimit : i.limit = limit)
    {r : Run} (hr : r.Bounded limit bound) (name : String) :
    Bounded limit bound ({ d with interpreter := i }.putRun name r) := by
  refine ⟨hlimit, fun other r' hr' => ?_⟩
  by_cases hother : other = name
  · subst hother
    obtain rfl := Option.some.inj ((run?_putRun_self _ _ _).symm.trans hr')
    exact hr
  · rw [run?_putRun_of_ne _ _ hother] at hr'
    exact h.runs other r' hr'

theorem Bounded.closeRun (h : Bounded limit bound d) (name : String) :
    Bounded limit bound (d.closeRun name) := by
  unfold Dialog.closeRun
  split
  · exact h
  · rename_i r _
    obtain ⟨hlimit, hclosed⟩ := Run.close_bounded h.interpreter r
    exact h.putRun hlimit hclosed name

/-- With a budget beyond the bound no step is interrupted. -/
theorem Bounded.perform {budget : Nat} (h : Bounded limit bound d) (hbudget : bound < budget)
    {st : DialogStep} (hst : st.stepBound d.digits limit ≤ bound) :
    (d.perform budget st).1 ≠ .interrupted ∧ Bounded limit bound (d.perform budget st).2 := by
  cases st with
  | start name script =>
    refine ⟨by simp [Dialog.perform], ?_⟩
    have hclosed := h.closeRun name
    exact hclosed.putRun hclosed.interpreter (Run.bounded_ofText limit _ hst) name
  | next name =>
    cases hrun : d.run? name with
    | none =>
      rw [perform_next_of_none hrun]
      exact ⟨by simp, h⟩
    | some r =>
      obtain ⟨houtcome, hlimit, hafter⟩ := (h.runs name r hrun).next h.interpreter hbudget
      rw [perform_next hrun]
      refine ⟨?_, h.putRun hlimit hafter name⟩
      cases hout : (Run.next budget d.interpreter r).outcome with
      | quiet => exact absurd hout houtcome
      | item | done | failed => simp [Outcome.reply]
  | give name value =>
    rcases perform_give_cases budget d name value with
      hnone | ⟨_, _, hfailed⟩ | ⟨r, request, after, hrun, -, hgive, hgiven⟩
    · rw [hnone]
      exact ⟨by simp, h⟩
    · rw [hfailed]
      exact ⟨by simp, h⟩
    · obtain ⟨filled, rfl⟩ := Run.eq_asking_of_give hgive
      rw [hgiven]
      exact ⟨by simp, h.putRun h.interpreter ((h.runs name r hrun).asking filled) name⟩
  | close name => exact ⟨by simp [Dialog.perform], h.closeRun name⟩

theorem Bounded.performAll {budget : Nat} (h : Bounded limit bound d) (hbudget : bound < budget)
    {steps : List DialogStep} (hsteps : ∀ st ∈ steps, st.stepBound d.digits limit ≤ bound) :
    .interrupted ∉ (d.performAll budget steps).1 := by
  induction steps generalizing d with
  | nil => simp [Dialog.performAll]
  | cons st rest ih =>
    obtain ⟨hst, hrest⟩ := List.forall_mem_cons.mp hsteps
    obtain ⟨hreply, hafter⟩ := h.perform hbudget hst
    rw [performAll_cons, List.mem_cons, not_or]
    exact ⟨hreply.symm, ih hafter (by rwa [digits_perform])⟩

end Dialog

open Dialog Grammar

/-- Runs of scripts that mention different names do not interfere. Whatever a host does with a
dialog, each run replies as it does to the same steps on a dialog of its own, with the same
variables and any trace; the variables of its script are left as they are left there, and variables
that no script mentions are left alone. -/
theorem performAll_independent (i : Interpreter) (digits : DigitLimit) (steps : List DialogStep)
    (hapart : steps.Pairwise fun s t => (s.names digits).Disjoint (t.names digits)) :
    (∀ budget before name script later, steps = before ++ .start name script :: later →
      ∀ trace, Repeats budget (ofInterpreter { i with trace := trace } digits)
        (ofRun name (((ofInterpreter i digits).history budget steps).drop before.length))
        (scriptNames script digits)
        ((ofInterpreter i digits).performAll budget steps).2.environment) ∧
    (∀ budget x, (∀ st ∈ steps, x ∉ st.names digits) →
      ((ofInterpreter i digits).performAll budget steps).2.environment.get? x
        = i.environment.get? x) ∧
    ∃ enough, ∀ budget, enough ≤ budget →
      .interrupted ∉ ((ofInterpreter i digits).performAll budget steps).1 := by
  have hnone : ∀ names name, (ofInterpreter i digits).Avoids names name := by
    rintro names name r ⟨⟩
  refine ⟨?_, fun budget x hx => ?_, ?_⟩
  · rintro budget before name script later rfl trace
    obtain ⟨-, hlater, hacross⟩ := List.pairwise_append.mp hapart
    obtain ⟨hscript, -⟩ := List.pairwise_cons.mp hlater
    have hbefore : ∀ st ∈ before, (scriptNames script digits).Disjoint (st.names digits) :=
      fun st hst => (hacross st hst (.start name script) (by simp)).symm
    obtain ⟨havoids, halike⟩ := performAll_avoids budget (hnone (scriptNames script digits)) hbefore
    rw [drop_history, performAll_append]
    exact start_follows budget trace (digits_performAll budget _ before) havoids halike hscript
  · have hsteps : ∀ st ∈ steps, [x].Disjoint (st.names digits) := by simpa using hx
    obtain ⟨-, halike⟩ := performAll_avoids budget (hnone [x]) hsteps
    exact (halike.environment x (by simp)).symm
  · obtain ⟨bound, hbound⟩ : ∃ bound, ∀ st ∈ steps, st.stepBound digits i.limit ≤ bound :=
      ⟨(steps.map (·.stepBound digits i.limit)).sum, fun st hst =>
        List.single_le_sum (by simp) _ (List.mem_map_of_mem hst)⟩
    have hfirst : Dialog.Bounded i.limit bound (ofInterpreter i digits) :=
      ⟨rfl, by rintro name r ⟨⟩⟩
    exact ⟨bound + 1, fun budget hbudget => hfirst.performAll hbudget hbound⟩

/-- A loop that writes a variable and a question are taken forward in turns; the loop is given up
in its second iteration, before the question is answered. -/
def crossedSteps : List DialogStep :=
  [.start "loop" "while a\n  << a\n", .start "question" ">> b\n", .next "loop", .next "question",
    .next "loop", .close "loop", .give "question" (.integer 7), .next "question"]

theorem performAll_independent_crossed :
    let i : Interpreter := ⟨2, [("a", .boolean true), ("c", .boolean false)], .ofLevel 2⟩
    (crossedSteps.Pairwise fun s t => (s.names .standard).Disjoint (t.names .standard)) ∧
      Repeats 9 (ofInterpreter { i with trace := .ofLevel 0 } .standard)
        (ofRun "question" (((ofInterpreter i .standard).history 9 crossedSteps).drop 1))
        (scriptNames ">> b\n" .standard)
        ((ofInterpreter i .standard).performAll 9 crossedSteps).2.environment ∧
      ((ofInterpreter i .standard).performAll 9 crossedSteps).2.environment.get? "c"
        = some (.boolean false) := by
  intro i
  have hloop : scriptNames "while a\n  << a\n" .standard = ["a", "a"] := by
    have htokens : tokensOf "while a\n  << a\n"
        = ⟨[⟨.keyword .whileWord, "while", 1, 1, 6⟩, ⟨.name, "a", 1, 7, 8⟩,
          ⟨.lineEnd, "\n", 1, 8, 9⟩, ⟨.indent, "", 2, 1, 3⟩, ⟨.sign .output, "<<", 2, 3, 5⟩,
          ⟨.name, "a", 2, 6, 7⟩, ⟨.lineEnd, "\n", 2, 7, 8⟩, ⟨.dedent, "", 3, 1, 2⟩,
          ⟨.sourceEnd, "", 3, 1, 2⟩], none⟩ := by decide +kernel
    have hbody : Statements .standard [⟨.sign .output, "<<", 2, 3, 5⟩, ⟨.name, "a", 2, 6, 7⟩,
        ⟨.lineEnd, "\n", 2, 7, 8⟩] _ := .cons (.output rfl (.whole (.variable rfl)) rfl) .nil
    exact scriptNames_of_grammar htokens
      (.statements (.cons (.loop rfl (.whole (.variable rfl)) rfl (.indented rfl rfl hbody)) .nil)
        rfl)
  have hquestion : scriptNames ">> b\n" .standard = ["b"] := by
    have htokens : tokensOf ">> b\n"
        = ⟨[⟨.sign .input, ">>", 1, 1, 3⟩, ⟨.name, "b", 1, 4, 5⟩, ⟨.lineEnd, "\n", 1, 5, 6⟩,
          ⟨.sourceEnd, "", 2, 1, 2⟩], none⟩ := by decide +kernel
    exact scriptNames_of_grammar htokens (.statements (.cons (.input rfl rfl rfl) .nil) rfl)
  have hapart :
      crossedSteps.Pairwise fun s t => (s.names .standard).Disjoint (t.names .standard) := by
    simp [crossedSteps, DialogStep.names, hloop, hquestion]
  obtain ⟨hruns, hothers, -⟩ := performAll_independent i .standard crossedSteps hapart
  refine ⟨hapart, ?_, ?_⟩
  · exact hruns 9 [.start "loop" "while a\n  << a\n"] "question" ">> b\n" _ rfl (.ofLevel 0)
  · refine hothers 9 "c" ?_
    simp [crossedSteps, DialogStep.names, hloop, hquestion]

end DialogScript
