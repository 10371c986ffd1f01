import DialogScript.Evaluation
import DialogScript.Program.Parser

/-!
# Interpolation is concatenation

A string with holes shows its parts one after the other. Adding the parts to an empty text, from
left to right, comes to the same (`eval_template_eq_eval_addParts`). Every sum then has a text on
its left, so that a part is shown and never added as a number (`Expr.eval_add`); and the parts are
evaluated in the same order, so that the first one without a value decides the error.

The parser writes a string of at most one text as that text. This changes neither the value of the
string (`Expr.eval_stringExpr`) nor that of the expressions it is a part of, and strings may stand
in the holes of strings to any depth (`Expr.eval_shortened`).
-/

namespace DialogScript

namespace Expr

/-- Parts added to an expression from left to right. Each sum has the span that `place` gives its
operands; no two sums have the same operands, so that any spans can be given. -/
def addParts (place : Expr → Expr → Span) (left : Expr) (parts : List Expr) : Expr :=
  parts.foldl (fun sum part => .binary .add sum part (place sum part)) left

mutual

/-- An expression with every string of at most one text in it written as that text. -/
def shortened : Expr → Expr
  | .template parts span => Parser.stringExpr (shortenedAll parts) span
  | .unary op operand span => .unary op (shortened operand) span
  | .binary op left right span => .binary op (shortened left) (shortened right) span
  | e => e

/-- Expressions with every string of at most one text in them written as that text. -/
def shortenedAll : List Expr → List Expr
  | [] => []
  | e :: rest => shortened e :: shortenedAll rest

end

variable {env : Environment} {place : Expr → Expr → Span}

/-! ### Strings and sums -/

private theorem evalParts_cons (e : Expr) (rest : List Expr) :
    evalParts env (e :: rest) =
      (e.eval env).bind fun v => (evalParts env rest).map (v.display ++ ·) := by
  rw [evalParts]
  cases e.eval env with
  | error error => rfl
  | ok v => cases evalParts env rest <;> rfl

private theorem eval_template (parts : List Expr) (span : Span) :
    (template parts span).eval env = (evalParts env parts).map .text := by
  rw [eval]
  cases evalParts env parts <;> rfl

/-- A sum with a text on its left shows its right operand behind that text. -/
theorem eval_add {left : Expr} {shown : Except EvalError String}
    (h : left.eval env = shown.map .text) (right : Expr) (span : Span) :
    (binary .add left right span).eval env =
      (shown.bind fun s => (right.eval env).map (s ++ ·.display)).map .text := by
  rw [eval, h]
  cases shown with
  | error error => rfl
  | ok s => cases right.eval env <;> rfl

/-- Parts that are added to a text are shown behind it one after the other. -/
theorem eval_addParts {left : Expr} {shown : Except EvalError String}
    (h : left.eval env = shown.map .text) (parts : List Expr) :
    (addParts place left parts).eval env =
      (shown.bind fun s => (evalParts env parts).map (s ++ ·)).map .text := by
  -- Each step makes `left` the sum with one more part, which shows a text again.
  induction parts generalizing left shown with
  | nil => cases shown <;> simp [addParts, evalParts, h, Except.bind, Except.map]
  | cons part rest ih =>
    rw [addParts, List.foldl_cons, ← addParts, ih (eval_add h part _), evalParts_cons]
    cases shown with
    | error error => rfl
    | ok s =>
      cases part.eval env with
      | error error => rfl
      | ok v => cases evalParts env rest <;> simp [Except.bind, Except.map, String.append_assoc]

/-! ### Strings of at most one text -/

/-- What the parser writes for a string has the value of the string. -/
theorem eval_stringExpr (parts : List Expr) (span : Span) :
    (Parser.stringExpr parts span).eval env = (template parts span).eval env := by
  unfold Parser.stringExpr
  -- A string without parts, of a single text, and any other.
  split
  · rw [eval_template]
    rfl
  · rw [eval_template, evalParts_cons]
    simp [eval, evalParts, Except.bind, Except.map, Value.display]
  · rfl

private theorem stringExpr_span (parts : List Expr) (span : Span) :
    (Parser.stringExpr parts span).span = span := by
  unfold Parser.stringExpr
  split <;> rfl

private theorem shortened_span (e : Expr) : e.shortened.span = e.span := by
  cases e with
  | template parts span => exact stringExpr_span (shortenedAll parts) span
  | _ => rfl

mutual

/-- Writing strings of at most one text as that text, at any depth, changes no value and no
error. -/
theorem eval_shortened (e : Expr) : e.shortened.eval env = e.eval env := by
  match e with
  | .integer _ _ | .float _ _ | .boolean _ _ | .text _ _ | .variable _ _ | .foreign _ _ => rfl
  | .template parts span =>
    rw [shortened, eval_stringExpr, eval_template, eval_template, evalParts_shortenedAll parts]
  | .unary op operand _ =>
    -- An error of the operator names the span of its operand.
    rw [shortened, eval, eval, eval_shortened operand, shortened_span]
  | .binary op left right _ =>
    rw [shortened, eval, eval, eval_shortened left, eval_shortened right, shortened_span,
      shortened_span]

theorem evalParts_shortenedAll (parts : List Expr) :
    evalParts env (shortenedAll parts) = evalParts env parts := by
  match parts with
  | [] => rfl
  | e :: rest =>
    rw [shortenedAll, evalParts_cons, evalParts_cons, eval_shortened e,
      evalParts_shortenedAll rest]

end

end Expr

/-- Interpolation is concatenation. In every environment a string has the value, or the error, of
its parts added to an empty text from left to right. It keeps it when the parser writes it as a bare
text, and when the strings in its parts are written so as well. -/
theorem eval_template_eq_eval_addParts (env : Environment) (parts : List Expr)
    (span start : Span) (place : Expr → Expr → Span) :
    (Expr.template parts span).eval env =
        (Expr.addParts place (.text "" start) parts).eval env ∧
      (Parser.stringExpr parts span).eval env = (Expr.template parts span).eval env ∧
      (Expr.template parts span).shortened.eval env = (Expr.template parts span).eval env := by
  refine ⟨?_, Expr.eval_stringExpr parts span, Expr.eval_shortened _⟩
  have hempty : (Expr.text "" start).eval env = (Except.ok "").map .text := rfl
  rw [Expr.eval_template, Expr.eval_addParts hempty]
  cases Expr.evalParts env parts <;> simp [Except.bind, Except.map]

/-- Without the empty text the numbers would be added. -/
example (span : Span) :
    (Expr.template [.integer 1 span, .integer 2 span] span).eval [] = .ok (.text "12") ∧
      (Expr.binary .add (.integer 1 span) (.integer 2 span) span).eval [] = .ok (.integer 3) :=
  ⟨rfl, rfl⟩

end DialogScript
