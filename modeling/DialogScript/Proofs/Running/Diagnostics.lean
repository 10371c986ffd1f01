import DialogScript.Proofs.Parsing.ErrorPlaces
import DialogScript.Proofs.Running.Safety

/-!
# Errors that can be shown

A diagnostic is shown with the line that it is about. Every error of the lexer and of the parser
points into the text, every node of a parsed tree stands in it, and a run keeps the spans of the
nodes in its state, so every error of a text or of a run of it is about one of its lines
(`showsLine_iff_of_raises`). The one exception is a block string that is not closed in a text which
ends in a comment: the text ends past its last line there, and no line is shown.
-/

namespace DialogScript

open Text

variable {text : String} {digits : DigitLimit}

/-! ### Trees -/

/-- Every node of an expression stands in a text. -/
inductive Expr.InText (text : String) : Expr → Prop
  | integer {n : Int} {span : Span} (hspan : span.InText text) : InText text (.integer n span)
  | float {x : Floating} {span : Span} (hspan : span.InText text) : InText text (.float x span)
  | boolean {b : Bool} {span : Span} (hspan : span.InText text) : InText text (.boolean b span)
  | text {s : String} {span : Span} (hspan : span.InText text) : InText text (.text s span)
  | template {parts : List Expr} {span : Span} (hparts : ∀ e ∈ parts, InText text e)
      (hspan : span.InText text) : InText text (.template parts span)
  | variable {name : String} {span : Span} (hspan : span.InText text) :
      InText text (.variable name span)
  | unary {op : UnaryOperator} {operand : Expr} {span : Span} (h : InText text operand)
      (hspan : span.InText text) : InText text (.unary op operand span)
  | binary {op : BinaryOperator} {left right : Expr} {span : Span} (hl : InText text left)
      (hr : InText text right) (hspan : span.InText text) :
      InText text (.binary op left right span)

/-- The span of an expression in a text is in the text. -/
theorem Expr.InText.span {e : Expr} (h : e.InText text) : e.span.InText text := by
  cases h <;> assumption

/-- Every node of a statement stands in a text. -/
inductive Stmt.InText (text : String) : Stmt → Prop
  | assign {name : String} {value : Expr} {span : Span} (hvalue : value.InText text)
      (hspan : span.InText text) : InText text (.assign name value span)
  | output {value : Expr} {span : Span} (hvalue : value.InText text)
      (hspan : span.InText text) : InText text (.output value span)
  | input {name : String} {type : Json} {span : Span} (hspan : span.InText text) :
      InText text (.input name type span)
  | block {body : List Stmt} {span : Span} (h : ∀ s ∈ body, InText text s)
      (hspan : span.InText text) : InText text (.block body span)
  | loop {condition : Expr} {body : Stmt} {span : Span} (hcondition : condition.InText text)
      (hbody : InText text body) (hspan : span.InText text) :
      InText text (.loop condition body span)
  | choice {first otherwise : Stmt} {others : List Stmt} {span : Span}
      (hbranches : ∀ s ∈ first :: others, InText text s) (hotherwise : InText text otherwise)
      (hspan : span.InText text) : InText text (.choice first others otherwise span)
  | branch {condition : Expr} {body : Stmt} {span : Span} (hcondition : condition.InText text)
      (hbody : InText text body) (hspan : span.InText text) :
      InText text (.branch condition body span)
  | absent : InText text .absent

/-- A token of a line's own and the start of a block close nothing. -/
theorem Token.isClosing_eq_false {t : Token} (h : t.kind.isLayout = false ∨ t.kind = .indent) :
    t.isClosing = false := by
  unfold isClosing
  rcases h with hown | hindent
  · cases hkind : t.kind <;> simp_all [TokenKind.isLayout]
  · simp [hindent]

/-- Tokens that stand in a text, apart from those that close blocks or end the source. -/
def StandIn (text : String) (ts : List Token) : Prop :=
  ∀ t ∈ ts, t.isClosing = false → t.extent.InText text

/-- Part of some tokens that stand in a text. -/
theorem StandIn.part {ts us : List Token} (h : StandIn text us) (before after : List Token)
    (hus : us = before ++ ts ++ after) : StandIn text ts :=
  fun t ht => h t (by simp [hus, ht])

/-- The tokens that stand in a text have extents in it, unless they end lines or blocks. -/
theorem StandIn.extent {ts : List Token} (h : StandIn text ts) {t : Token} (ht : t ∈ ts)
    (hown : t.kind.isLayout = false ∨ t.kind = .indent) : t.extent.InText text :=
  h t ht (Token.isClosing_eq_false hown)

namespace Grammar

/-- Expressions whose tokens stand in a text stand in it. -/
theorem keeps_inText :
    Keeps (fun t => t.isClosing = false → t.extent.InText text) (Span.InText text)
      (Expr.InText text) where
  extent _ hlayout ht := ht (Token.isClosing_eq_false (.inl hlayout))
  join _ s' hs := hs.join s'
  span _ he := he.span
  integer _ _ _ hspan := .integer hspan
  float _ _ _ hspan := .float hspan
  boolean _ _ hspan := .boolean hspan
  text _ _ hspan := .text hspan
  name _ hkind ht := .variable (ht (Token.isClosing_eq_false (.inl (by rw [hkind]; rfl))))
  unary _ _ _ he hspan := .unary he hspan
  binary _ _ _ _ hl hr hspan := .binary hl hr hspan
  template _ _ _ _ hparts hspan := .template hparts hspan

private theorem inText_of_expression {level : Level} {ts : List Token} {e : Expr}
    (h : Expression digits level ts e) (hts : StandIn text ts) : e.InText text :=
  h.kept keeps_inText hts

mutual

private theorem inText_of_statement {ts : List Token} {s : Stmt} (h : Statement digits ts s)
    (hts : StandIn text ts) : s.InText text := by
  match h with
  | .assign hname hsign he hlast =>
    rename_i name sign last ts e
    exact .assign (inText_of_expression he (hts.part [name, sign] [last] (by simp)))
      ((hts.extent (by simp) (by simp [hname, TokenKind.isLayout])).join _)
  | .output hsign he hlast =>
    rename_i sign last ts e
    exact .output (inText_of_expression he (hts.part [sign] [last] (by simp)))
      ((hts.extent (by simp) (by simp [hsign, TokenKind.isLayout])).join _)
  | .input hsign hname hlast =>
    exact .input ((hts.extent (by simp) (by simp [hsign, TokenKind.isLayout])).join _)
  | .typedInput hsign hname hlink has hword htype hlast =>
    exact .input
      (((hts.extent (by simp) (by simp [hsign, TokenKind.isLayout])).join _).join _)
  | .block h => exact inText_of_block h hts
  | .loop hkeyword he hlast hbody =>
    rename_i keyword last ts body e s
    exact .loop (inText_of_expression he (hts.part [keyword] (last :: body) (by simp)))
      (inText_of_block hbody (hts.part (keyword :: ts ++ [last]) [] (by simp)))
      (hts.extent (by simp) (by simp [hkeyword, TokenKind.isLayout]))
  | .choice hkeyword he hlast hbody hrest =>
    rename_i keyword last ts body rest e s otherwise others
    have hcondition :=
      inText_of_expression he (hts.part [keyword] (last :: body ++ rest) (by simp))
    have hblock := inText_of_block hbody (hts.part (keyword :: ts ++ [last]) rest (by simp))
    obtain ⟨hothers, hotherwise⟩ :=
      inText_of_elseParts hrest (hts.part (keyword :: ts ++ last :: body) [] (by simp))
    have hspan := hts.extent (t := keyword) (by simp) (by simp [hkeyword, TokenKind.isLayout])
    exact .choice (List.forall_mem_cons.mpr ⟨.branch hcondition hblock hspan, hothers⟩) hotherwise
      hspan
termination_by structural h

private theorem inText_of_statements {ts : List Token} {ss : List Stmt}
    (h : Statements digits ts ss)
    (hts : StandIn text ts) : ∀ s ∈ ss, s.InText text := by
  match h with
  | .nil => exact List.forall_mem_nil _
  | .cons h hrest =>
    rename_i ts us s rest
    exact List.forall_mem_cons.mpr ⟨inText_of_statement h (hts.part [] us (by simp)),
      inText_of_statements hrest (hts.part ts [] (by simp))⟩
termination_by structural h

private theorem inText_of_block {ts : List Token} {s : Stmt} (h : Block digits ts s)
    (hts : StandIn text ts) : s.InText text := by
  match h with
  | .indented ho hc h =>
    rename_i o c ts body
    exact .block (inText_of_statements h (hts.part [o] [c] (by simp)))
      (hts.extent (by simp) (.inr ho))
termination_by structural h

private theorem inText_of_elseParts {ts : List Token} {others : List Stmt} {otherwise : Stmt}
    (h : ElseParts digits ts others otherwise) (hts : StandIn text ts) :
    (∀ s ∈ others, s.InText text) ∧ otherwise.InText text := by
  match h with
  | .nothing => exact ⟨List.forall_mem_nil _, .absent⟩
  | .otherwise hkeyword hlast hbody =>
    rename_i keyword last body
    exact ⟨List.forall_mem_nil _,
      inText_of_block hbody (hts.part [keyword, last] [] (by simp))⟩
  | .branch hkeyword hsecond he hlast hbody hrest =>
    rename_i keyword second last ts body rest e s others
    have hcondition :=
      inText_of_expression he (hts.part [keyword, second] (last :: body ++ rest) (by simp))
    have hblock :=
      inText_of_block hbody (hts.part (keyword :: second :: ts ++ [last]) rest (by simp))
    obtain ⟨hothers, hotherwise⟩ :=
      inText_of_elseParts hrest (hts.part (keyword :: second :: ts ++ last :: body) [] (by simp))
    have hspan := hts.extent (t := keyword) (by simp) (by simp [hkeyword, TokenKind.isLayout])
    exact ⟨List.forall_mem_cons.mpr ⟨.branch hcondition hblock (hspan.join _), hothers⟩,
      hotherwise⟩
termination_by structural h

end

end Grammar

/-- The statements of a text that are complete before its first error stand in it. -/
theorem inText_parseText (text : String) (digits : DigitLimit) :
    ∀ s ∈ (parseText text digits).items, s.InText text := by
  obtain ⟨⟨ts, rest, htokens, hstatements⟩, -⟩ := parseText_accounts text digits
  refine Grammar.inText_of_statements hstatements fun t ht hkind => ?_
  have hmem : t ∈ (tokensOf text).items := by simp [htokens, ht]
  exact ((inText_tokensOf text).1 t hmem (.inl hkind)).extent
    (Lexer.wellMade_of_mem_tokens _ t hmem)

/-! ### Values -/

/-- The error of a run is about a place of a text, or about the end of a comment that ends it. -/
def RunError.PointsInto (text : String) : RunError → Prop
  | .parse (.malformed e) => e.PointsInto text
  | .runtime e => e.span.InText text
  | _ => True

namespace Value

private theorem arithmetic_error {op : BinaryOperator} {a b : Value} {left right : Span}
    {e : RuntimeError} (h : arithmetic op a b left right = .error e) :
    e.span = left ∨ e.span = right := by
  unfold arithmetic at h
  split at h
  · split at h
    · cases h
    · split at h
      · exact .inr (Except.error.inj h ▸ rfl)
      · cases h
  · exact .inl (Except.error.inj h ▸ rfl)
  · exact .inr (Except.error.inj h ▸ rfl)

private theorem logical_error {op : BinaryOperator} {a b : Value} {left right : Span}
    {e : RuntimeError} (h : logical op a b left right = .error e) :
    e.span = left ∨ e.span = right := by
  unfold logical at h
  split at h
  · cases h
  · exact .inr (Except.error.inj h ▸ rfl)
  · exact .inl (Except.error.inj h ▸ rfl)

/-- An operator that does not apply is an error about one of its operands. -/
theorem binary_error {op : BinaryOperator} {a b : Value} {left right : Span} {e : RuntimeError}
    (h : binary op a b left right = .error e) : e.span = left ∨ e.span = right := by
  unfold binary at h
  split at h
  · cases h
  · cases h
  · exact logical_error h
  · exact logical_error h
  · exact logical_error h
  · split at h
    · cases h
    · exact arithmetic_error h
  · exact arithmetic_error h

private theorem unary_error {op : UnaryOperator} {a : Value} {span : Span} {e : RuntimeError}
    (h : unary op a span = .error e) : e.span = span := by
  unfold unary at h
  split at h
  · cases h
  · cases h
  · cases h
  · exact Except.error.inj h ▸ rfl

end Value

namespace Expr

variable {env : Environment}

private theorem pointsInto_mapError {α : Type} {x : Except RuntimeError α} {error : EvalError}
    (h : x.mapError .runtime = .error error) (hx : ∀ e, x = .error e → e.span.InText text) :
    (RunError.ofEval error).PointsInto text := by
  cases x with
  | ok a => cases h
  | error e =>
    obtain rfl := Except.error.inj h
    exact hx e rfl

mutual

/-- An expression without a value is an error about a node of it. -/
theorem pointsInto_of_eval {e : Expr} (h : e.InText text) {error : EvalError}
    (heval : e.eval env = .error error) : (RunError.ofEval error).PointsInto text := by
  match e, h with
  | .integer _ _, _ =>
    rw [eval] at heval
    split at heval
    · cases heval
    · exact Except.error.inj heval ▸ trivial
  | .float _ _, _ | .boolean _ _, _ | .text _ _, _ => cases heval
  | .template parts _, .template hparts _ =>
    rw [eval] at heval
    split at heval
    · cases heval
    · rename_i hfailed
      exact Except.error.inj heval ▸ pointsInto_of_evalParts hparts hfailed
  | .variable name span, .variable hspan =>
    rw [eval] at heval
    split at heval
    · cases heval
    · exact Except.error.inj heval ▸ hspan
  | .unary op operand _, .unary hoperand _ =>
    rw [eval] at heval
    split at heval
    · exact pointsInto_mapError heval fun e he => Value.unary_error he ▸ hoperand.span
    · rename_i hfailed
      exact Except.error.inj heval ▸ pointsInto_of_eval hoperand hfailed
  | .binary op left right _, .binary hl hr _ =>
    rw [eval] at heval
    split at heval
    · rename_i hfailed
      exact Except.error.inj heval ▸ pointsInto_of_eval hl hfailed
    · split at heval
      · rename_i hfailed
        exact Except.error.inj heval ▸ pointsInto_of_eval hr hfailed
      · refine pointsInto_mapError heval fun e he => ?_
        rcases Value.binary_error he with hspan | hspan
        · exact hspan ▸ hl.span
        · exact hspan ▸ hr.span

theorem pointsInto_of_evalParts {parts : List Expr} (h : ∀ e ∈ parts, e.InText text)
    {error : EvalError} (heval : evalParts env parts = .error error) :
    (RunError.ofEval error).PointsInto text := by
  match parts with
  | [] => cases heval
  | e :: rest =>
    obtain ⟨he, hrest⟩ := List.forall_mem_cons.mp h
    rw [evalParts] at heval
    split at heval
    · rename_i hfailed
      exact Except.error.inj heval ▸ pointsInto_of_eval he hfailed
    · split at heval
      · rename_i hfailed
        exact Except.error.inj heval ▸ pointsInto_of_evalParts hrest hfailed
      · cases heval

end

private theorem pointsInto_of_evalCondition {e : Expr} (h : e.InText text) {error : EvalError}
    (heval : e.evalCondition env = .error error) : (RunError.ofEval error).PointsInto text := by
  unfold evalCondition at heval
  split at heval
  · rename_i hfailed
    exact Except.error.inj heval ▸ pointsInto_of_eval h hfailed
  · cases heval
  · exact Except.error.inj heval ▸ h.span

end Expr

/-! ### Runs -/

namespace Run

variable {i : Interpreter} {r r' : Run}

/-- All that a run keeps is about places of a text. -/
structure InText (text : String) (r : Run) : Prop where
  pending : ∀ s ∈ r.pending, s.InText text
  incoming : ∀ s ∈ r.incoming.items, s.InText text
  fault : ∀ e, r.incoming.fault = some (.malformed e) → e.PointsInto text
  guards : ∀ entry ∈ r.guards, entry.2.span.InText text
  request : ∀ q, r.request = some q → q.span.InText text

/-- What a step gives, a request or an error, is about a place of the text. -/
def Gives (text : String) : Outcome → Prop
  | .failed e => e.PointsInto text
  | .item (.request q) => q.span.InText text
  | _ => True

/-- A step keeps the places of a run, and what it gives is about one of them. -/
structure StepInText (text : String) (s : RunStep) : Prop where
  after : s.run.InText text
  gives : Gives text s.outcome

/-- A run fails at a place in the text if its error is about one. -/
theorem InText.failed (h : r.InText text) {e : RunError} (he : e.PointsInto text) :
    StepInText text ⟨.failed e, i, r⟩ :=
  ⟨h, he⟩

/-- A statement of the text is put in front of those to be done. -/
theorem InText.push (h : r.InText text) {s : Stmt} (hs : s.InText text) :
    (r.push s).InText text :=
  ⟨List.forall_mem_cons.mpr ⟨hs, h.pending⟩, h.incoming, h.fault, h.guards, h.request⟩

theorem InText.withGuards (h : r.InText text) {guards : LoopGuards}
    (hguards : ∀ entry ∈ guards, entry.2.span.InText text) :
    InText text { r with guards := guards } :=
  ⟨h.pending, h.incoming, h.fault, hguards, h.request⟩

private theorem mem_of_find? {guards : LoopGuards} {line : Int} {guard : LoopGuard}
    (h : guards.find? line = some guard) : ∃ entry ∈ guards, entry.2 = guard := by
  obtain ⟨entry, hentry, rfl⟩ := Option.map_eq_some_iff.mp h
  exact ⟨entry, List.mem_of_find?_eq_some hentry, rfl⟩

private theorem loopStep_inText (h : r.InText text) {condition : Expr} {body : Stmt} {span : Span}
    (hcondition : condition.InText text) (hbody : body.InText text) (hspan : span.InText text) :
    StepInText text (loopStep i r condition body span) := by
  have hforget : ∀ entry ∈ r.guards.forget span.line, entry.2.span.InText text :=
    fun entry hentry => h.guards entry (List.mem_filter.mp hentry).1
  have hguard : ((r.guards.find? span.line).getD ⟨span, 0⟩).span.InText text := by
    cases hfind : r.guards.find? span.line with
    | none => exact hspan
    | some guard =>
      obtain ⟨entry, hentry, rfl⟩ := mem_of_find? hfind
      exact h.guards entry hentry
  unfold loopStep
  split
  · rename_i hfailed
    exact h.failed (Expr.pointsInto_of_evalCondition hcondition hfailed)
  · exact ⟨h.withGuards hforget, trivial⟩
  · have hset : ∀ guard : LoopGuard, guard.span.InText text →
        InText text { r with guards := r.guards.set span.line guard } :=
      fun _ hspan => h.withGuards (List.forall_mem_cons.mpr ⟨hspan, hforget⟩)
    dsimp only
    split
    · refine InText.failed (hset _ ?_) ?_ <;> exact hguard
    · refine ⟨InText.push (InText.push (hset _ ?_) (.loop hcondition hbody hspan)) hbody, trivial⟩
      exact hguard

private theorem chooseBranch_inText {branches : List Stmt} (h : ∀ s ∈ branches, s.InText text) :
    (∀ e, (chooseBranch i branches).1 = .error e → e.PointsInto text) ∧
      ∀ s, (chooseBranch i branches).1 = .ok (some s) → s.InText text := by
  induction branches generalizing i with
  | nil => simp [chooseBranch]
  | cons first rest ih =>
    obtain ⟨hfirst, hrest⟩ := List.forall_mem_cons.mp h
    unfold chooseBranch
    split
    · simp
    · rename_i heq
      obtain ⟨rfl, rfl⟩ := List.cons.inj heq
      cases hfirst with
      | branch hcondition hbody =>
        split
        · rename_i hfailed
          refine ⟨fun e he => ?_, by simp⟩
          exact Except.error.inj he ▸ Expr.pointsInto_of_evalCondition hcondition hfailed
        · dsimp only
          split
          · refine ⟨by simp, fun s hs => ?_⟩
            exact Option.some.inj (Except.ok.inj hs) ▸ hbody
          · exact ih hrest
    · rename_i heq
      obtain ⟨rfl, rfl⟩ := List.cons.inj heq
      cases hfirst with
      | loop hcondition hbody =>
        split
        · rename_i hfailed
          refine ⟨fun e he => ?_, by simp⟩
          exact Except.error.inj he ▸ Expr.pointsInto_of_evalCondition hcondition hfailed
        · dsimp only
          split
          · refine ⟨fun e he => ?_, by simp⟩
            exact Except.error.inj he ▸ trivial
          · exact ih hrest
    · refine ⟨fun e he => ?_, by simp⟩
      exact Except.error.inj he ▸ trivial

/-- A statement of a text leaves a state of the text, and fails at a place of it. -/
theorem execute_inText (h : r.InText text) {s : Stmt} (hs : s.InText text) :
    StepInText text (execute i r s) := by
  cases hs with
  | output hvalue =>
    rw [execute]
    split
    · rename_i hfailed
      exact h.failed (Expr.pointsInto_of_eval hvalue hfailed)
    · exact ⟨h, trivial⟩
  | assign hvalue =>
    rw [execute]
    split
    · rename_i hfailed
      exact h.failed (Expr.pointsInto_of_eval hvalue hfailed)
    · exact ⟨h, trivial⟩
  | input hspan =>
    rw [execute]
    split
    · exact h.failed trivial
    · refine ⟨⟨h.pending, h.incoming, h.fault, h.guards, ?_⟩, hspan⟩
      rintro q ⟨⟩
      exact hspan
  | @block body span hbody =>
    refine ⟨⟨fun s hs => ?_, h.incoming, h.fault, h.guards, h.request⟩, trivial⟩
    exact (List.mem_append.mp hs).elim (hbody s) (h.pending s)
  | loop hcondition hbody hspan => exact loopStep_inText h hcondition hbody hspan
  | choice hbranches hotherwise =>
    obtain ⟨hfailed, hchosen⟩ := chooseBranch_inText (i := i) hbranches
    rw [execute]
    split
    · rename_i heq
      rw [heq] at hfailed
      exact h.failed (hfailed _ rfl)
    · rename_i chosen _ heq
      rw [heq] at hchosen
      split
      · exact ⟨h, trivial⟩
      · refine ⟨h.push ?_, trivial⟩
        cases chosen with
        | some s => exact hchosen s rfl
        | none => exact hotherwise
  | branch | absent => exact h.failed trivial

private theorem takeAnswer_inText (h : r.InText text) : StepInText text (takeAnswer i r) := by
  have hactive : InText text { r with stage := .active } :=
    ⟨h.pending, h.incoming, h.fault, h.guards, h.request⟩
  unfold takeAnswer
  split
  · exact ⟨hactive, trivial⟩
  · rename_i request hrequest
    split
    · rename_i e hvalue
      refine h.failed ?_
      unfold Request.value at hvalue
      split at hvalue
      · cases hvalue
      · exact Except.error.inj hvalue ▸ h.request request hrequest
    · exact ⟨hactive, trivial⟩

private theorem fetch_inText (h : r.InText text) :
    (∀ s left, r.fetch = .ok (some (s, left)) → s.InText text ∧ left.InText text) ∧
      ∀ e, r.fetch = .error e → e.PointsInto text := by
  refine ⟨fun s left hfetch => ?_, fun e hfetch => ?_⟩
  · rcases fetch_eq_some hfetch with ⟨rest, hpending, rfl⟩ | ⟨rest, -, hitems, rfl⟩
    · obtain ⟨hs, hrest⟩ := List.forall_mem_cons.mp (hpending ▸ h.pending)
      exact ⟨hs, hrest, h.incoming, h.fault, h.guards, h.request⟩
    · obtain ⟨hs, hrest⟩ := List.forall_mem_cons.mp (hitems ▸ h.incoming)
      exact ⟨hs, h.pending, hrest, h.fault, h.guards, h.request⟩
  · obtain ⟨cause, hfault, rfl⟩ := fetch_eq_error hfetch
    cases cause with
    | malformed error => exact h.fault error hfault
    | _ => trivial

/-- A step of a run of a text leaves a state of the text, and fails at a place of it. -/
theorem step_inText (i : Interpreter) (h : r.InText text) : StepInText text (step i r) := by
  unfold step
  split
  · exact ⟨h, trivial⟩
  · exact takeAnswer_inText h
  · obtain ⟨hfetched, hfailed⟩ := fetch_inText h
    split
    · rename_i hfetch
      exact h.failed (hfailed _ hfetch)
    · exact ⟨h, trivial⟩
    · rename_i hfetch
      obtain ⟨hs, hleft⟩ := hfetched _ _ hfetch
      exact execute_inText hleft hs

/-- A refused answer is about the place of the request. -/
theorem give_inText (h : r.InText text) {request : Request} (hspan : request.span.InText text)
    (value : HostValue) :
    (∀ r', r.give request value = .ok r' → r'.InText text) ∧
      ∀ e, r.give request value = .error e → e.span.InText text := by
  constructor
  · intro r' hgive
    obtain ⟨given, hgiven, hr'⟩ := bind_eq_ok.mp hgive
    obtain rfl := pure_eq_ok.mp hr'
    refine ⟨h.pending, h.incoming, h.fault, h.guards, ?_⟩
    rintro q ⟨⟩
    unfold Request.give at hgiven
    split at hgiven
    · cases hgiven
    · split at hgiven
      · cases hgiven
      · split at hgiven
        · exact Except.ok.inj hgiven ▸ hspan
        · cases hgiven
  · intro e hgive
    unfold give at hgive
    cases hgiven : request.give value with
    | ok given =>
      rw [hgiven] at hgive
      cases hgive
    | error e' =>
      rw [hgiven] at hgive
      obtain rfl := Except.error.inj hgive
      unfold Request.give at hgiven
      split at hgiven
      · exact Except.error.inj hgiven ▸ hspan
      · split at hgiven
        · exact Except.error.inj hgiven ▸ hspan
        · split at hgiven
          · cases hgiven
          · exact Except.error.inj hgiven ▸ hspan

private theorem start_inText (h : r.InText text) : (start i r).2.InText text := by
  unfold start
  split
  · exact ⟨h.pending, h.incoming, h.fault, h.guards, h.request⟩
  · exact h

private theorem inText_ofText (source : Source) (text : String) (digits : DigitLimit) :
    (ofText source text digits).InText text :=
  ⟨List.forall_mem_nil _, inText_parseText text digits, fun _ => pointsInto_of_parseText,
    List.forall_mem_nil _, by simp [ofText, ofListing]⟩

/-- The states that a run comes through from its start, by its own steps and by answers to its last
request, whatever happens to the variables in between. -/
inductive Visits (r₀ : Run) : Run → Prop
  | start (i : Interpreter) : Visits r₀ (start i r₀).2
  | step {r : Run} (i : Interpreter) (h : Visits r₀ r) : Visits r₀ (step i r).run
  | give {r r' : Run} {request : Request} {value : HostValue} (h : Visits r₀ r)
      (hrequest : r.request = some request) (hgive : r.give request value = .ok r') :
      Visits r₀ r'

private theorem inText_of_visits {r₀ : Run} (h₀ : r₀.InText text) (h : Visits r₀ r) :
    r.InText text := by
  induction h with
  | start => exact start_inText h₀
  | step i _ ih => exact (step_inText i ih).after
  | give _ hrequest hgive ih => exact (give_inText ih (ih.request _ hrequest) _).1 _ hgive

/-- A played run that is given up is given up at a place of the text. -/
theorem playSteps_inText {budget : Nat} {answers : List HostValue} (h : r.InText text) :
    (∀ e, (playSteps budget i r answers).ending = .failed e → e.PointsInto text) ∧
      ∀ q, (playSteps budget i r answers).ending = .unanswered q → q.span.InText text := by
  induction budget generalizing i r answers with
  | zero => simp [playSteps]
  | succ budget ih =>
    have hstepped := step_inText i h
    rw [playSteps]
    split
    · rename_i hstep
      rw [hstep] at hstepped
      exact ih hstepped.after
    · simp
    · rename_i hstep
      rw [hstep] at hstepped
      refine ⟨fun e he => ?_, by simp⟩
      exact Ending.failed.inj he ▸ hstepped.gives
    · rename_i hstep
      rw [hstep] at hstepped
      exact ih hstepped.after
    · rename_i hstep
      rw [hstep] at hstepped
      split
      · refine ⟨by simp, fun q hq => ?_⟩
        exact Ending.unanswered.inj hq ▸ hstepped.gives
      · obtain ⟨hgiven, hrefused⟩ := give_inText hstepped.after hstepped.gives _
        split
        · rename_i hgive
          refine ⟨fun e he => ?_, by simp⟩
          exact Ending.failed.inj he ▸ hrefused _ hgive
        · rename_i hgive
          exact ih (hgiven _ hgive)

end Run

/-! ### Diagnostics -/

namespace Diagnostic

/-- What stands before the carets under a line. -/
def indentation (shown : List Char) (initial : Int) : List Char :=
  (List.range (initial - 1).toNat).map fun k => if shown[k]? = some '\t' then '\t' else ' '

private theorem padding_eq {span : Span} (h : 1 ≤ span.initial) (shown : List Char) :
    padding span shown = indentation shown span.initial := by
  obtain ⟨n, hn⟩ := Int.eq_ofNat_of_zero_le (Int.sub_nonneg.mpr h)
  have hpast : (span.initial - 1 - (shown.length : Int)).toNat = n - shown.length := by omega
  rw [padding, indentation, takeTo, if_pos (by omega), hpast, hn]
  rw [Int.toNat_natCast]
  refine List.ext_getElem (by simp; omega) fun k hk hk' => ?_
  have hkn : k < n := by simpa using hk'
  rw [List.getElem_map, List.getElem_range]
  by_cases hline : k < shown.length
  · rw [List.getElem_append_left (by simp; omega), List.getElem_map, List.getElem_take,
      List.getElem?_eq_getElem hline]
    simp
  · rw [List.getElem_append_right (by simp; omega), List.getElem_replicate,
      List.getElem?_eq_none (by omega)]
    rfl

/-- A diagnostic is shown with its line: the line is one of the text, and under it there is one
character for every column before the span, a tab under a tab, and one caret for every column of
the span. -/
structure ShowsLine (text : String) (d : Diagnostic) : Prop where
  line_pos : 1 ≤ d.location.span.line
  line_le : d.location.span.line ≤ (lines text.toList).length
  initial_pos : 1 ≤ d.location.span.initial
  parts : ∀ files indent, ∃ line, Text.line? text.toList d.location.span.line = some line ∧
    d.renderLines files indent = [d.kind.heading ++ ": " ++ d.message, d.location.describe,
      indent ++ String.ofList line,
      indent ++ String.ofList (indentation line d.location.span.initial
        ++ List.replicate (d.location.span.final - d.location.span.initial).toNat '^')]

private theorem showsLine_of_inText {d : Diagnostic} (hsource : d.location.source = .inline text)
    (h : d.location.span.InText text) : d.ShowsLine text := by
  refine ⟨h.line_pos, h.line_le, h.column_pos, fun files indent => ?_⟩
  have hlt : d.location.span.line.toNat - 1 < (lines text.toList).length := by
    have := h.line_le
    have := h.line_pos
    omega
  have hline : Text.line? text.toList d.location.span.line
      = some ((lines text.toList)[d.location.span.line.toNat - 1]) := by
    rw [Text.line?, if_pos h.line_pos, List.getElem?_eq_getElem hlt]
  refine ⟨_, hline, ?_⟩
  have hfound : d.line? files = some ((lines text.toList)[d.location.span.line.toNat - 1]) := by
    rw [Diagnostic.line?, hsource]
    exact hline
  rw [renderLines, hfound]
  dsimp only
  rw [padding_eq h.column_pos, carets]

end Diagnostic

/-- A program that is run to its end fails at a place of its text. -/
theorem pointsInto_of_runProgram {budget : Nat} {i : Interpreter} {source : Source}
    {answers : List HostValue} {e : RunError}
    (h : runProgram budget i source text answers digits = some (.error e)) :
    e.PointsInto text := by
  have hstart : (Run.start i (Run.ofText source text digits)).2.InText text :=
    Run.start_inText (Run.inText_ofText source text digits)
  unfold runProgram at h
  dsimp only at h
  split at h
  · cases h
  · rename_i hending
    obtain rfl := Except.error.inj (Option.some.inj h)
    exact (Run.playSteps_inText hstart).1 _ hending
  · rename_i hending
    obtain rfl := Except.error.inj (Option.some.inj h)
    exact (Run.playSteps_inText hstart).2 _ hending
  · cases h

private theorem parseProgram_error {source : Source} {e : ParseError}
    (h : (parseText text digits).fault = some e) :
    parseProgram source text digits = .error e := by
  simp [parseProgram, Listing.toExcept, h, bind, Except.bind]

/-- The errors that come of a text: of its statements, of any state that a run of them comes
through, of an answer to a request, and of playing the run to its end. -/
inductive Raises (text : String) (digits : DigitLimit) : Diagnostic → Prop
  | parsing {e : ParseError} {d : Diagnostic}
      (h : parseProgram (.inline text) text digits = .error e)
      (hd : (RunError.parse e).diagnostic? (.inline text) = some d) : Raises text digits d
  | step {i : Interpreter} {r : Run} {e : RunError} {d : Diagnostic}
      (h : Run.Visits (Run.ofText (.inline text) text digits) r)
      (hstep : (Run.step i r).outcome = .failed e)
      (hd : e.diagnostic? (.inline text) = some d) : Raises text digits d
  | answer {r : Run} {request : Request} {value : HostValue} {e : RuntimeError}
      (h : Run.Visits (Run.ofText (.inline text) text digits) r)
      (hrequest : r.request = some request) (hgive : r.give request value = .error e) :
      Raises text digits (e.diagnostic (.inline text))
  | play {budget : Nat} {i : Interpreter} {answers : List HostValue} {e : RunError}
      {d : Diagnostic}
      (h : runProgram budget i (.inline text) text answers digits = some (.error e))
      (hd : e.diagnostic? (.inline text) = some d) : Raises text digits d

/-- The diagnostic of a block string that is not closed in a text which ends in a comment. -/
def Diagnostic.pastEnd (text : String) : Diagnostic :=
  SyntaxError.diagnostic (.inline text)
    ⟨.unclosedString, Span.point ((lines text.toList).length + 1) 1⟩

private theorem showsLine_or_pastEnd {e : RunError} {d : Diagnostic} (h : e.PointsInto text)
    (hd : e.diagnostic? (.inline text) = some d) : d.ShowsLine text ∨
      d = .pastEnd text ∧ ∃ last, (lines text.toList).getLast? = some last ∧ '#' ∈ last := by
  have hsource := RunError.source_of_diagnostic? hd
  unfold RunError.diagnostic? at hd
  split at hd
  · rename_i e
    obtain rfl := Option.some.inj hd
    rcases h with hspan | hpast
    · exact .inl (Diagnostic.showsLine_of_inText hsource hspan)
    · refine .inr ⟨?_, hpast.comment⟩
      rw [SyntaxError.diagnostic, hpast.cause, hpast.span]
      rfl
  · cases hd
  · obtain rfl := Option.some.inj hd
    exact .inl (Diagnostic.showsLine_of_inText hsource h)
  · cases hd

private theorem showsLine_of_raises {d : Diagnostic} (h : Raises text digits d) : d.ShowsLine text ∨
    d = .pastEnd text ∧ ∃ last, (lines text.toList).getLast? = some last ∧ '#' ∈ last := by
  have hrun := Run.inText_ofText (.inline text) text digits
  cases h with
  | @parsing e _ h hd =>
    refine showsLine_or_pastEnd ?_ hd
    cases e with
    | malformed e =>
      have hfault : (parseText text digits).fault = some (.malformed e) := by
        unfold parseProgram at h
        cases hlisted : (parseText text digits).fault with
        | none => simp [Listing.toExcept, hlisted, bind, Except.bind, pure, Except.pure] at h
        | some e' =>
          simp only [Listing.toExcept, hlisted, bind, Except.bind] at h
          rw [Except.error.inj h]
      exact pointsInto_of_parseText hfault
    | _ => trivial
  | @step i r e _ h hstep hd =>
    have hgives := (Run.step_inText i (Run.inText_of_visits hrun h)).gives
    rw [hstep] at hgives
    exact showsLine_or_pastEnd hgives hd
  | answer h hrequest hgive =>
    have hr := Run.inText_of_visits hrun h
    exact .inl (Diagnostic.showsLine_of_inText rfl
      ((Run.give_inText hr (hr.request _ hrequest) _).2 _ hgive))
  | @play budget i answers e _ h hd =>
    exact showsLine_or_pastEnd (pointsInto_of_runProgram h) hd

/-- Every error of a text is shown with its line, except that of a block string which is not closed
in a text whose last line holds a comment. -/
theorem showsLine_iff_of_raises {d : Diagnostic} (h : Raises text digits d) :
    (d.ShowsLine text ↔ d ≠ .pastEnd text) ∧ (d = .pastEnd text →
      ∃ last, (lines text.toList).getLast? = some last ∧ '#' ∈ last) := by
  have hpast : ¬(Diagnostic.pastEnd text).ShowsLine text := by
    intro hshows
    have hle : ((lines text.toList).length : Int) + 1 ≤ (lines text.toList).length :=
      hshows.line_le
    omega
  rcases showsLine_of_raises h with hshows | ⟨rfl, hcomment⟩
  · refine ⟨⟨fun _ heq => hpast (heq ▸ hshows), fun _ => hshows⟩, fun heq => ?_⟩
    exact absurd (heq ▸ hshows) hpast
  · exact ⟨⟨fun hshows => absurd hshows hpast, fun hne => absurd rfl hne⟩, fun _ => hcomment⟩

/-- An error behind a comment line, in an indented line: a tab stands under the tab. -/
theorem showsLine_indented : ∃ d, Raises "# greeting\n\tname ? 1" .standard d ∧
    d.renderLines (fun _ => none) "  " = ["ScriptSyntaxError: Unexpected symbol '?'",
      "Inline, line 2", "  \tname ? 1", "  \t     ^"] ∧
    (d.ShowsLine "# greeting\n\tname ? 1" ↔ d ≠ .pastEnd "# greeting\n\tname ? 1") ∧
    (d = .pastEnd "# greeting\n\tname ? 1" → ∃ last,
      (lines "# greeting\n\tname ? 1".toList).getLast? = some last ∧ '#' ∈ last) := by
  have htokens : tokensOf "# greeting\n\tname ? 1"
      = ⟨[⟨.indent, "", 2, 1, 2⟩, ⟨.name, "name", 2, 2, 6⟩],
        some ⟨.unexpectedSymbol '?', Span.point 2 7⟩⟩ := by decide +kernel
  have hfault : (parseText "# greeting\n\tname ? 1" .standard).fault
      = some (.malformed ⟨.unexpectedSymbol '?', Span.point 2 7⟩) := by
    rw [parseText, htokens, parseTokens, Feed.start_of_hasTwo rfl]
    dsimp only
    rw [Parser.statementsFrom, Parser.statement, Parser.block]
    rfl
  have hraises := Raises.parsing (parseProgram_error hfault) rfl
  exact ⟨_, hraises, by decide +kernel, showsLine_iff_of_raises hraises⟩

/-- A block string that is not closed in front of a comment at the end of the text is reported on
a line that the text does not have. -/
theorem line_unavailable_of_comment : ∃ d, Raises "<< \"\"\"#" .standard d ∧
    d.renderLines (fun _ => none) "  " = ["ScriptSyntaxError: String is not closed with a quote",
      "Inline, line 2", "  <line unavailable>"] ∧ ¬d.ShowsLine "<< \"\"\"#" := by
  have htokens : tokensOf "<< \"\"\"#"
      = ⟨[⟨.sign .output, "<<", 1, 1, 3⟩, ⟨.stringStart, "\"\"\"", 1, 4, 7⟩],
        some ⟨.unclosedString, Span.point 2 1⟩⟩ := by decide +kernel
  have hfault : (parseText "<< \"\"\"#" .standard).fault
      = some (.malformed ⟨.unclosedString, Span.point 2 1⟩) := by
    rw [parseText, htokens, parseTokens, Feed.start_of_hasTwo rfl]
    dsimp only
    rw [Parser.statementsFrom, Parser.statement, Parser.output]
    rfl
  refine ⟨_, Raises.parsing (parseProgram_error hfault) rfl, by decide +kernel, fun hshows => ?_⟩
  exact absurd hshows.line_le (by decide +kernel)

end DialogScript
