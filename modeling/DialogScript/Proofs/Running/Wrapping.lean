import DialogScript.Proofs.Running.Arithmetic
import Mathlib.Data.Int.ModEq

/-!
# Integer arithmetic wraps around

Every sum, difference, product and negation of integers is wrapped around at 32 bits, at every node
of an expression. Wrapping keeps a number modulo `2 ^ 32`, and so does the arithmetic in between; so
an expression of any depth comes to what its exact, unbounded value wraps around to
(`eval_of_amountsTo`). A remainder of two such expressions is that of the wrapped operands, which is
in range already (`remainder_spec`).

`Expr.AmountsTo` gives an expression its exact value; it covers the expressions of integer literals,
integer variables, sums, differences, products and negations.
-/

namespace DialogScript

namespace Value

/-! ### Wrapping -/

/-- An integer of 32 bits holds what a number wraps around to. -/
theorem toInt_ofInt_eq_wrap (n : Int) : (Int32.ofInt n).toInt = wrap n := by
  simp [Int32.toInt_ofInt, wrap, Int.bmod]
  omega

/-- What a number wraps around to is the only number of 32 bits that is congruent to it. -/
theorem eq_wrap_iff {n k : Int} :
    -2 ^ 31 ≤ k ∧ k < 2 ^ 31 ∧ k ≡ n [ZMOD 2 ^ 32] ↔ k = wrap n := by
  unfold wrap Int.ModEq
  omega

/-- The operators whose result on integers is wrapped around: wrapping their operands first makes no
difference. -/
theorem integerResult_wrap {op : BinaryOperator} (h : op = .add ∨ op = .sub ∨ op = .mul)
    (m n : Int) :
    Int32.ofInt (integerResult op (Int32.ofInt m).toInt (Int32.ofInt n).toInt)
      = Int32.ofInt (integerResult op m n) := by
  rcases h with rfl | rfl | rfl <;>
    simp only [integerResult, Int32.ofInt_add, Int32.ofInt_sub, Int32.ofInt_mul, Int32.ofInt_toInt]

/-- The remainder of the division toward zero: it leaves a multiple of the divisor, lies below the
divisor, and has the sign of the dividend. -/
theorem remainder_spec (a : Int) {b : Int} (hb : b ≠ 0) :
    b ∣ a - a.tmod b ∧ |a.tmod b| < |b| ∧ (0 ≤ a → 0 ≤ a.tmod b) ∧ (a ≤ 0 → a.tmod b ≤ 0) := by
  refine ⟨Int.dvd_self_sub_tmod, ?_, Int.tmod_nonneg b, fun ha => ?_⟩
  · rw [Int.abs_eq_natAbs, Int.abs_eq_natAbs, Int.natAbs_tmod]
    exact_mod_cast Nat.mod_lt _ (Int.natAbs_pos.mpr hb)
  · have hneg := Int.tmod_nonneg b (Int.neg_nonneg.mpr ha)
    rw [Int.neg_tmod] at hneg
    omega

/-- A remainder needs no wrapping: no dividend and divisor of 32 bits have one beyond them. -/
theorem wrap_tmod (a b : Int32) (hb : b.toInt ≠ 0) :
    wrap (a.toInt.tmod b.toInt) = a.toInt.tmod b.toInt := by
  obtain ⟨-, hless, -, -⟩ := remainder_spec a.toInt hb
  obtain ⟨hlow, hhigh⟩ := abs_lt.mp (hless.trans_le (abs_toInt_le b))
  exact (eq_wrap_iff.mp ⟨hlow.le, hhigh, rfl⟩).symm

/-! ### Operators on integers -/

variable (left right : Span)

private theorem binary_ofInt {op : BinaryOperator} (h : op = .add ∨ op = .sub ∨ op = .mul)
    (m n : Int) :
    binary op (ofInt m) (ofInt n) left right = .ok (ofInt (integerResult op m n)) := by
  have hresult := integerResult_wrap h m n
  rcases h with rfl | rfl | rfl <;> exact congrArg (fun k => Except.ok (Value.integer k)) hresult

private theorem unary_negate_ofInt (n : Int) : unary .negate (ofInt n) left = .ok (ofInt (-n)) := by
  change Except.ok (Value.integer (Int32.ofInt (-(Int32.ofInt n).toInt))) = _
  rw [Int32.ofInt_neg, Int32.ofInt_toInt, ← Int32.ofInt_neg]
  rfl

private theorem binary_mod_integer (a : Int32) {b : Int32} (hb : b.toInt ≠ 0) :
    binary .mod (.integer a) (.integer b) left right = .ok (ofInt (a.toInt.tmod b.toInt)) := by
  have hzero : (b == 0) = false := by
    rw [beq_eq_false_iff_ne]
    rintro rfl
    exact hb rfl
  simp [binary, arithmetic, toSingle?, isOrder, isZero, hzero, numberResult, integerResult]

end Value

namespace Expr

variable {env : Environment}

/-! ### Exact values -/

/-- An expression of integers amounts to an exact value, however large it is on the way. -/
inductive AmountsTo (env : Environment) : Expr → Int → Prop
  | literal {n : Int} {span : Span} (hrange : -2 ^ 31 ≤ n ∧ n < 2 ^ 31) :
      AmountsTo env (.integer n span) n
  | bound {name : String} {span : Span} {n : Int32} (hget : env.get? name = some (.integer n)) :
      AmountsTo env (.variable name span) n.toInt
  | negation {e : Expr} {n : Int} {span : Span} (he : AmountsTo env e n) :
      AmountsTo env (.unary .negate e span) (-n)
  | sum {e e' : Expr} {m n : Int} {span : Span} (he : AmountsTo env e m)
      (he' : AmountsTo env e' n) : AmountsTo env (.binary .add e e' span) (m + n)
  | difference {e e' : Expr} {m n : Int} {span : Span} (he : AmountsTo env e m)
      (he' : AmountsTo env e' n) : AmountsTo env (.binary .sub e e' span) (m - n)
  | product {e e' : Expr} {m n : Int} {span : Span} (he : AmountsTo env e m)
      (he' : AmountsTo env e' n) : AmountsTo env (.binary .mul e e' span) (m * n)

/-- A value that an expression has, also if arithmetic is done strictly. -/
def HasValue (env : Environment) (e : Expr) (v : Value) : Prop :=
  e.eval env = .ok v ∧ e.evalStrictly env = .ok v

namespace HasValue

variable {e e' : Expr} {a b v : Value} {span : Span}

/-- Where no arithmetic is done, there is nothing to do strictly. -/
theorem of_eval (hstrictly : e.evalStrictly env = (e.eval env).mapError .script)
    (heval : e.eval env = .ok v) : e.HasValue env v :=
  ⟨heval, by rw [hstrictly, heval]; rfl⟩

theorem unary {op : UnaryOperator} (he : e.HasValue env a)
    (hv : Value.unary op a e.span = .ok v) : (Expr.unary op e span).HasValue env v := by
  constructor
  · rw [eval, he.1]
    simp [hv, Except.mapError]
  · rw [evalStrictly, he.2]
    simp [Value.strictUnary_eq, Value.strictly, hv, Except.mapError]

theorem binary {op : BinaryOperator} (he : e.HasValue env a) (he' : e'.HasValue env b)
    (hb : b.Proper) (hv : Value.binary op a b e.span e'.span = .ok v) :
    (Expr.binary op e e' span).HasValue env v := by
  constructor
  · rw [eval, he.1, he'.1]
    simp [hv, Except.mapError]
  · rw [evalStrictly, he.2, he'.2]
    simp [Value.strictBinary_eq hb, Value.strictly, hv, Except.mapError]

end HasValue

/-- An expression of integers has the value that its exact value wraps around to. -/
theorem AmountsTo.hasValue {e : Expr} {n : Int} (h : e.AmountsTo env n) :
    e.HasValue env (.ofInt n) := by
  induction h with
  | literal hrange =>
    refine .of_eval rfl ?_
    rw [eval, Value.ofInteger, if_pos (by omega)]
  | bound hget =>
    refine .of_eval rfl ?_
    rw [eval, hget, Value.ofInt, Int32.ofInt_toInt]
  | negation _ ih => exact ih.unary (Value.unary_negate_ofInt _ _)
  | sum _ _ ih ih' => exact ih.binary ih' trivial (Value.binary_ofInt _ _ (by simp) _ _)
  | difference _ _ ih ih' => exact ih.binary ih' trivial (Value.binary_ofInt _ _ (by simp) _ _)
  | product _ _ ih ih' => exact ih.binary ih' trivial (Value.binary_ofInt _ _ (by simp) _ _)

end Expr

open Value

/-- Integer arithmetic is arithmetic modulo `2 ^ 32`. An expression of integers has a value, which
is the only number of 32 bits that is congruent to its exact value; and the remainder by another
such expression, if that one is not zero, is the remainder toward zero of the two values as they
are. Both also have these values if every integer is checked to fit and no divisor may be zero. -/
theorem eval_of_amountsTo {env : Environment} {e : Expr} {m : Int} (h : e.AmountsTo env m) :
    (∃ v : Int32, e.HasValue env (.integer v) ∧
      ∀ k : Int, -2 ^ 31 ≤ k ∧ k < 2 ^ 31 ∧ k ≡ m [ZMOD 2 ^ 32] ↔ k = v.toInt) ∧
    ∀ {e' : Expr} {n : Int} (span : Span), e'.AmountsTo env n →
      e'.eval env ≠ .ok (.integer 0) →
      ∃ r : Int32, (Expr.binary .mod e e' span).HasValue env (.integer r) ∧
        r.toInt = (Value.wrap m).tmod (Value.wrap n) ∧ Value.wrap n ∣ Value.wrap m - r.toInt ∧
        |r.toInt| < |Value.wrap n| ∧ (0 ≤ Value.wrap m → 0 ≤ r.toInt) ∧
        (Value.wrap m ≤ 0 → r.toInt ≤ 0) := by
  refine ⟨⟨Int32.ofInt m, h.hasValue, fun k => ?_⟩, fun {e' n} span h' hzero => ?_⟩
  · rw [toInt_ofInt_eq_wrap]
    exact eq_wrap_iff
  · have hdivisor : (Int32.ofInt n).toInt ≠ 0 := by
      intro hn
      refine hzero (h'.hasValue.1.trans ?_)
      rw [ofInt, Int32.toInt_inj.mp (hn.trans Int32.toInt_zero.symm)]
    have hvalue : (Expr.binary .mod e e' span).HasValue env
        (ofInt ((Int32.ofInt m).toInt.tmod (Int32.ofInt n).toInt)) :=
      h.hasValue.binary h'.hasValue trivial (binary_mod_integer _ _ _ hdivisor)
    have hremainder := wrap_tmod (Int32.ofInt m) (Int32.ofInt n) hdivisor
    rw [toInt_ofInt_eq_wrap] at hdivisor
    obtain ⟨hdvd, hless, hnonneg, hnonpos⟩ := remainder_spec (Value.wrap m) hdivisor
    refine ⟨_, hvalue, ?_⟩
    rw [toInt_ofInt_eq_wrap, hremainder, toInt_ofInt_eq_wrap, toInt_ofInt_eq_wrap]
    exact ⟨rfl, hdvd, hless, hnonneg, hnonpos⟩

/-- A product and a negation beyond 32 bits: the exact value is 4611686016279904257, and what it
wraps around to leaves the remainder `-1` when it is divided by `-2`. -/
theorem eval_of_amountsTo_overflow :
    let env : Environment := [("x", .integer (-2147483648))]
    let span : Span := ⟨1, 1, 2, by decide⟩
    let e := Expr.binary .add (.binary .mul (.integer 2147483647 span) (.integer 2147483647 span)
      span) (.unary .negate (.variable "x" span) span) span
    e.AmountsTo env 4611686016279904257 ∧
      (∃ v : Int32, e.HasValue env (.integer v) ∧ v.toInt = -2147483647) ∧
      ∃ r : Int32, (Expr.binary .mod e (.integer (-2) span) span).HasValue env (.integer r) ∧
        r.toInt = -1 := by
  intro env span e
  have hfactor : (Expr.integer 2147483647 span).AmountsTo env 2147483647 := .literal (by decide)
  have hx : (Expr.variable "x" span).AmountsTo env (-2147483648) :=
    .bound (n := -2147483648) rfl
  have hvalue : e.AmountsTo env 4611686016279904257 :=
    .sum (.product hfactor hfactor) (.negation hx)
  obtain ⟨⟨v, hv, hunique⟩, hremainder⟩ := eval_of_amountsTo hvalue
  have hdivisor : (Expr.integer (-2) span).AmountsTo env (-2) := .literal (by decide)
  obtain ⟨r, hr, htmod, -⟩ := hremainder span hdivisor (by decide)
  exact ⟨hvalue, ⟨v, hv, ((hunique (-2147483647)).mp (by decide)).symm⟩, r, hr, htmod.trans rfl⟩

end DialogScript
