import DialogScript.Evaluation
import DialogScript.Proofs.Numbers.Rounding

/-!
# Arithmetic does not break down

Values are computed with operations that have a result for all operands. `Expr.evalStrictly`
computes them with operations that break down: there is no quotient and no remainder for a zero
divisor, and an integer that does not fit in 32 bits is no value. The values that scripts and hosts
make keep their floats in single precision (`Value.Proper`); on these a divisor that passes the
check for zero is not zero where it is used, and both evaluations come to the same
(`Expr.evalStrictly_eq`).
-/

namespace DialogScript

/-- How arithmetic breaks down. -/
inductive Breakdown where
  | zeroDivisor
  | integerRange (value : Int)
  deriving DecidableEq

/-- Why a strict evaluation has no value. -/
inductive StrictError where
  | script (error : EvalError)
  | breakdown (cause : Breakdown)
  deriving DecidableEq

namespace Value

/-! ### Strict arithmetic -/

/-- The integer of 32 bits that a number wraps around to. -/
def wrap (n : Int) : Int := (n + 2147483648) % 4294967296 - 2147483648

/-- The value of an integer after it was wrapped around. -/
def strictInteger (n : Int) : Except Breakdown Value :=
  match Value.ofInteger (wrap n) with
  | .ok v => .ok v
  | .error _ => .error (.integerRange (wrap n))

def strictRemainder (m n : Int) : Except Breakdown Int :=
  match remainder? m n with
  | some r => .ok r
  | none => .error .zeroDivisor

def strictQuotient (x y : Floating) : Except Breakdown Floating :=
  if y.isZero then .error .zeroDivisor else .ok (Floating.div .double x y)

/-- The value of an operator on two numbers, which count as the singles `x` and `y`. -/
def strictNumberResult (op : BinaryOperator) (a b : Value) (x y : Floating) :
    Except Breakdown Value :=
  match op, a, b with
  | .div, _, _ => (strictQuotient x y).map .ofFloating
  | .mod, .integer m, .integer n => strictRemainder m.toInt n.toInt >>= strictInteger
  | op, .integer m, .integer n => strictInteger (integerResult op m.toInt n.toInt)
  | op, _, _ => .ok (.ofFloating (floatResult op x y))

/-- The value of an operator that works on numbers. -/
def strictArithmetic (op : BinaryOperator) (a b : Value) (left right : Span) :
    Except StrictError Value :=
  match a.toSingle?, b.toSingle? with
  | some x, some y =>
    if isOrder op then .ok (.boolean (compareBy op (difference x y)))
    else if (op = .div ∨ op = .mod) ∧ b.isZero then
      .error (.script (.ofCause .divisionByZero right))
    else (strictNumberResult op a b x y).mapError .breakdown
  | none, _ => .error (.script (.ofCause (.numberOperands op a.type b.type) left))
  | some _, none => .error (.script (.ofCause (.numberOperands op a.type b.type) right))

/-- An error of a script in a strict evaluation. -/
def strictly {α : Type} (result : Except RuntimeError α) : Except StrictError α :=
  result.mapError fun e => .script (.runtime e)

/-- The value of a binary operator. Only arithmetic can break down. -/
def strictBinary (op : BinaryOperator) (a b : Value) (left right : Span) :
    Except StrictError Value :=
  match op with
  | .equal => strictly (binary op a b left right)
  | .notEqual => strictly (binary op a b left right)
  | .and => strictly (binary op a b left right)
  | .or => strictly (binary op a b left right)
  | .xor => strictly (binary op a b left right)
  | .add =>
    if a.type = .text ∨ b.type = .text then strictly (binary op a b left right)
    else strictArithmetic op a b left right
  | _ => strictArithmetic op a b left right

/-- The value of a unary operator. -/
def strictUnary (op : UnaryOperator) (a : Value) (span : Span) : Except StrictError Value :=
  match op, a with
  | .negate, .integer n => (strictInteger (-n.toInt)).mapError .breakdown
  | op, a => strictly (unary op a span)

end Value

namespace Expr

mutual

/-- The value of an expression, computed strictly. -/
def evalStrictly (env : Environment) : Expr → Except StrictError Value
  | .template parts _ =>
    match evalPartsStrictly env parts with
    | .ok s => .ok (.text s)
    | .error e => .error e
  | .unary op operand _ =>
    match evalStrictly env operand with
    | .ok v => Value.strictUnary op v operand.span
    | .error e => .error e
  | .binary op left right _ =>
    match evalStrictly env left with
    | .error e => .error e
    | .ok a =>
      match evalStrictly env right with
      | .error e => .error e
      | .ok b => Value.strictBinary op a b left.span right.span
  | e => (e.eval env).mapError .script

/-- The display texts of some parts put together, computed strictly. -/
def evalPartsStrictly (env : Environment) : List Expr → Except StrictError String
  | [] => .ok ""
  | e :: rest =>
    match evalStrictly env e with
    | .error e => .error e
    | .ok v =>
      match evalPartsStrictly env rest with
      | .error e => .error e
      | .ok s => .ok (v.display ++ s)

end

end Expr

namespace Value

/-! ### Values that scripts make -/

/-- A value as scripts and hosts make it: a float is of single precision. -/
def Proper : Value → Prop
  | .float x => x.IsSingle
  | _ => True

private theorem proper_ofFloating (x : Floating) :
    (ofFloating x).Proper := Floating.isSingle_toSingle x

private theorem proper_made (v : Value) : v.made.Proper := by
  cases v with
  | float x => exact proper_ofFloating x
  | integer | text | boolean => trivial

private theorem proper_of_ofInteger {n : Int} {v : Value} (h : ofInteger n = .ok v) : v.Proper := by
  unfold ofInteger at h
  split at h
  · exact Except.ok.inj h ▸ trivial
  · cases h

/-- A number that is not zero is not zero in single precision. -/
theorem Proper.isZero_toSingle {b : Value} {y : Floating} (hb : b.Proper)
    (hsingle : b.toSingle? = some y) (h : b.isZero = false) : y.isZero = false := by
  cases b with
  | integer n =>
    obtain rfl := Option.some.inj hsingle
    refine Floating.isZero_toSingle_ofInt fun hzero => ?_
    have : n = 0 := Int32.toInt_inj.mp (hzero.trans Int32.toInt_zero.symm)
    simp [isZero, this] at h
  | float x =>
    obtain rfl := Option.some.inj hsingle
    rwa [hb]
  | text | boolean => cases hsingle

private theorem strictInteger_eq (n : Int) : strictInteger n = .ok (.ofInt n) := by
  have hrange : -2147483648 ≤ wrap n ∧ wrap n ≤ 2147483647 := by
    unfold wrap
    omega
  have hwrap : Int32.ofInt (wrap n) = Int32.ofInt n := by
    refine Int32.toInt_inj.mp ?_
    rw [Int32.toInt_ofInt, Int32.toInt_ofInt]
    simp [wrap, Int.bmod]
  rw [strictInteger, ofInteger, if_pos hrange, ofInt, hwrap, ofInt]

/-- An integer of a script is no greater in magnitude than the least one. -/
theorem abs_toInt_le (n : Int32) : |n.toInt| ≤ 2 ^ 31 := abs_le.mpr ⟨n.le_toInt, n.toInt_lt.le⟩

private theorem toInt_ne_zero {n : Int32} (h : (Value.integer n).isZero = false) : n.toInt ≠ 0 := by
  intro hzero
  have : n = 0 := Int32.toInt_inj.mp (hzero.trans Int32.toInt_zero.symm)
  simp [isZero, this] at h

/-- An operator on two numbers does not break down if its divisor is not zero. -/
theorem strictNumberResult_eq {op : BinaryOperator} {a b : Value} {x y : Floating} (hb : b.Proper)
    (hy : b.toSingle? = some y) (hdivisor : op = .div ∨ op = .mod → b.isZero = false) :
    strictNumberResult op a b x y = .ok (numberResult op a b x y) := by
  unfold strictNumberResult
  split
  · have hquotient : numberResult .div a b x y = .ofFloating (floatResult .div x y) := by
      unfold numberResult
      split <;> rfl
    rw [strictQuotient, hb.isZero_toSingle hy (hdivisor (.inl rfl)), hquotient]
    rfl
  · rename_i m n
    have hn := toInt_ne_zero (hdivisor (.inr rfl))
    rw [strictRemainder, remainder?, if_neg hn]
    exact strictInteger_eq _
  · rename_i op m n hdiv hmod
    rw [strictInteger_eq, numberResult, if_neg hdiv]
  · rename_i hinteger _
    unfold numberResult
    split
    · exact (hinteger _ _ rfl rfl).elim
    · rfl

private theorem strictArithmetic_eq {b : Value} (hb : b.Proper) (op : BinaryOperator) (a : Value)
    (left right : Span) :
    strictArithmetic op a b left right = strictly (arithmetic op a b left right) := by
  unfold strictArithmetic arithmetic
  cases hx : a.toSingle? with
  | none => rfl
  | some x =>
    cases hy : b.toSingle? with
    | none => rfl
    | some y =>
      dsimp only
      split
      · rfl
      · split
        · rfl
        · rename_i hdivisor
          rw [strictNumberResult_eq hb hy (by simpa using hdivisor)]
          rfl

/-- Binary operators with checks that can fail are those without. -/
theorem strictBinary_eq {b : Value} (hb : b.Proper) (op : BinaryOperator) (a : Value)
    (left right : Span) :
    strictBinary op a b left right = strictly (binary op a b left right) := by
  unfold strictBinary
  split
  · rfl
  · rfl
  · rfl
  · rfl
  · rfl
  · split
    · rfl
    · rename_i htext
      rw [strictArithmetic_eq hb, binary, if_neg htext]
  · rw [strictArithmetic_eq hb]
    unfold binary
    split <;> first | rfl | contradiction

/-- Unary operators with checks that can fail are those without. -/
theorem strictUnary_eq (op : UnaryOperator) (a : Value) (span : Span) :
    strictUnary op a span = strictly (unary op a span) := by
  unfold strictUnary
  split
  · rw [strictInteger_eq]
    rfl
  · rfl

/-! ### Results -/

private theorem proper_numberResult (op : BinaryOperator) (a b : Value) (x y : Floating) :
    (numberResult op a b x y).Proper := by
  unfold numberResult
  split
  · split
    · exact proper_ofFloating _
    · trivial
  · exact proper_ofFloating _

private theorem proper_arithmetic {op : BinaryOperator} {a b v : Value} {left right : Span}
    (h : arithmetic op a b left right = .ok v) : v.Proper := by
  unfold arithmetic at h
  split at h
  · split at h
    · rw [← Except.ok.inj h]
      trivial
    · split at h
      · cases h
      · rw [← Except.ok.inj h]
        exact proper_numberResult _ _ _ _ _
  · cases h
  · cases h

private theorem proper_logical {op : BinaryOperator} {a b v : Value} {left right : Span}
    (h : logical op a b left right = .ok v) : v.Proper := by
  unfold logical at h
  split at h
  · rw [← Except.ok.inj h]
    trivial
  · cases h
  · cases h

private theorem proper_binary {op : BinaryOperator} {a b v : Value} {left right : Span}
    (h : binary op a b left right = .ok v) : v.Proper := by
  unfold binary at h
  split at h
  · rw [← Except.ok.inj h]
    trivial
  · rw [← Except.ok.inj h]
    trivial
  · exact proper_logical h
  · exact proper_logical h
  · exact proper_logical h
  · split at h
    · rw [← Except.ok.inj h]
      trivial
    · exact proper_arithmetic h
  · exact proper_arithmetic h

private theorem proper_unary {op : UnaryOperator} {a v : Value} {span : Span}
    (h : unary op a span = .ok v) : v.Proper := by
  unfold unary at h
  split at h
  · rw [← Except.ok.inj h]
    trivial
  · rw [← Except.ok.inj h]
    trivial
  · rw [← Except.ok.inj h]
    exact proper_ofFloating _
  · cases h

end Value

/-- What a host hands over becomes a proper value. -/
theorem HostValue.proper_of_toValue {value : HostValue} {v : Value} (h : value.toValue = .ok v) :
    v.Proper := by
  cases value with
  | integer n => exact Value.proper_of_ofInteger h
  | real x => exact Except.ok.inj h ▸ Value.proper_ofFloating x
  | text | boolean => exact Except.ok.inj h ▸ trivial
  | value v => exact Except.ok.inj h ▸ v.proper_made
  | other => cases h

/-- Variables whose values are as scripts and hosts make them. -/
def Environment.Proper (env : Environment) : Prop := ∀ entry ∈ env, entry.2.Proper

namespace Environment.Proper

variable {env : Environment} {name : String} {v : Value}

/-- A variable holds a proper value. -/
theorem get? (h : env.Proper) (hget : env.get? name = some v) : v.Proper := by
  induction env with
  | nil => cases hget
  | cons entry rest ih =>
    obtain ⟨hentry, hrest⟩ := List.forall_mem_cons.mp h
    rw [Environment.get?] at hget
    split at hget
    · obtain rfl := Option.some.inj hget
      exact hentry
    · exact ih hrest hget

/-- A proper value is kept in a variable. -/
theorem set (h : env.Proper) (hv : v.Proper) : (env.set name v).Proper := by
  induction env with
  | nil => exact List.forall_mem_singleton.mpr hv
  | cons entry rest ih =>
    obtain ⟨hentry, hrest⟩ := List.forall_mem_cons.mp h
    rw [Environment.set]
    split
    · exact List.forall_mem_cons.mpr ⟨hv, hrest⟩
    · exact List.forall_mem_cons.mpr ⟨hentry, ih hrest⟩

end Environment.Proper

/-! ### Expressions -/

private theorem ok_of_mapError {ε δ α : Type} {x : Except ε α} {f : ε → δ} {a : α}
    (h : x.mapError f = .ok a) : x = .ok a := by
  cases x with
  | ok b => exact congrArg Except.ok (Except.ok.inj h)
  | error e => cases h

namespace Expr

variable {env : Environment}

/-- The value of an expression is as scripts make it. -/
theorem proper_of_eval (henv : env.Proper) {e : Expr} {v : Value} (h : e.eval env = .ok v) :
    v.Proper := by
  match e with
  | .integer n _ =>
    rw [eval] at h
    split at h
    · rename_i hinteger
      exact Value.proper_of_ofInteger (Except.ok.inj h ▸ hinteger)
    · cases h
  | .float x _ => exact Except.ok.inj h ▸ Value.proper_ofFloating x
  | .boolean _ _ | .text _ _ => exact Except.ok.inj h ▸ trivial
  | .template parts _ =>
    rw [eval] at h
    split at h
    · exact Except.ok.inj h ▸ trivial
    · cases h
  | .variable name _ =>
    rw [eval] at h
    split at h
    · rename_i hget
      exact henv.get? (Except.ok.inj h ▸ hget)
    · cases h
  | .unary op operand _ =>
    rw [eval] at h
    split at h
    · exact Value.proper_unary (ok_of_mapError h)
    · cases h
  | .binary op left right _ =>
    rw [eval] at h
    split at h
    · cases h
    · split at h
      · cases h
      · exact Value.proper_binary (ok_of_mapError h)
  | .foreign _ _ => cases h

mutual

/-- Strict evaluation never breaks down. -/
theorem evalStrictly_eq (henv : env.Proper) (e : Expr) :
    e.evalStrictly env = (e.eval env).mapError .script := by
  match e with
  | .integer _ _ | .float _ _ | .boolean _ _ | .text _ _ | .variable _ _ | .foreign _ _ => rfl
  | .template parts _ =>
    rw [evalStrictly, eval, evalPartsStrictly_eq henv parts]
    cases evalParts env parts <;> rfl
  | .unary op operand _ =>
    rw [evalStrictly, eval, evalStrictly_eq henv operand]
    cases operand.eval env with
    | error e => rfl
    | ok v =>
      dsimp only [Except.mapError]
      rw [Value.strictUnary_eq]
      cases Value.unary op v operand.span <;> rfl
  | .binary op left right _ =>
    rw [evalStrictly, eval, evalStrictly_eq henv left, evalStrictly_eq henv right]
    cases left.eval env with
    | error e => rfl
    | ok a =>
      cases hright : right.eval env with
      | error e => rfl
      | ok b =>
        dsimp only [Except.mapError]
        rw [Value.strictBinary_eq (proper_of_eval henv hright)]
        cases Value.binary op a b left.span right.span <;> rfl

theorem evalPartsStrictly_eq (henv : env.Proper) (parts : List Expr) :
    evalPartsStrictly env parts = (evalParts env parts).mapError .script := by
  match parts with
  | [] => rfl
  | e :: rest =>
    rw [evalPartsStrictly, evalParts, evalStrictly_eq henv e, evalPartsStrictly_eq henv rest]
    cases e.eval env with
    | error e => rfl
    | ok v => cases evalParts env rest <;> rfl

end

end Expr

end DialogScript
