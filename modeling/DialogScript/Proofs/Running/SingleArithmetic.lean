import DialogScript.Evaluation
import DialogScript.Proofs.Numbers.RoundedOnce

/-!
# Float arithmetic is single-precision arithmetic

A number counts as the exact value of the single that it is converted to (`Value.CountsAs`), an
integer as well as a float. Sums, differences and products with a float and all quotients are
computed in double precision and brought to single precision afterwards. Their values are the exact
results rounded once: the nearest single, an even one in a tie, an infinity beyond the greatest
single (`Value.binary_roundsTo`).
-/

namespace DialogScript

namespace Value

open Floating Format

/-! ### Exact values -/

/-- A number counts as a rational if the single that it is converted to has this exact value; an
infinite or undefined single has none. -/
def CountsAs (v : Value) (x : Rat) : Prop := ∃ s, v.toSingle? = some s ∧ s.toRat? = some x

/-- The exact result of an arithmetic operator on rationals. -/
def exactResult (op : BinaryOperator) (x y : Rat) : Rat :=
  match op with
  | .add => x + y
  | .sub => x - y
  | .mul => x * y
  | _ => x / y

variable {a b : Value} {s t : Floating} {x y : Rat}

theorem isSingle_of_toSingle? (h : a.toSingle? = some s) : s.IsSingle := by
  cases a with
  | integer | float => exact Option.some.inj h ▸ isSingle_toSingle _
  | text | boolean => cases h

theorem CountsAs.spans (h : a.CountsAs x) : single.Spans x := by
  obtain ⟨s, hs, hx⟩ := h
  exact (isSingle_of_toSingle? hs).spans hx

@[simp]
theorem not_countsAs_text (text : String) : ¬ (Value.text text).CountsAs x := by
  rintro ⟨s, hs, -⟩
  cases hs

@[simp]
theorem not_countsAs_boolean (truth : Bool) : ¬ (Value.boolean truth).CountsAs x := by
  rintro ⟨s, hs, -⟩
  cases hs

theorem CountsAs.unique (hx : a.CountsAs x) (hy : a.CountsAs y) : x = y := by
  obtain ⟨s, hs, hx⟩ := hx
  obtain ⟨t, ht, hy⟩ := hy
  obtain rfl := Option.some.inj (hs.symm.trans ht)
  exact Option.some.inj (hx.symm.trans hy)

private theorem CountsAs.type_ne_text (h : a.CountsAs x) : a.type ≠ .text := by
  cases a with
  | integer | float | boolean => simp [type]
  | text => exact absurd h (not_countsAs_text _)

/-- What does not count as zero passes the check of a divisor. -/
theorem CountsAs.isZero (h : b.CountsAs y) (hne : y ≠ 0) : b.isZero = false := by
  obtain ⟨s, hs, hy⟩ := h
  by_contra hzero
  rw [Bool.not_eq_false] at hzero
  cases b with
  | integer n =>
    obtain rfl : n = 0 := by simpa [Value.isZero] using hzero
    obtain rfl := Option.some.inj hs
    rw [show (Floating.ofInt (Int32.toInt 0)).toSingle = .zero false by decide +kernel] at hy
    exact hne (Option.some.inj hy).symm
  | float z =>
    obtain rfl := Option.some.inj hs
    cases z with
    | zero => exact hne (Option.some.inj hy).symm
    | nan | infinite | finite => cases hzero
  | text | boolean => cases hs

/-! ### Operators -/

/-- An operator computed in double precision and brought to single precision rounds the exact result
once. -/
theorem roundsTo_floatResult {op : BinaryOperator} (hop : op ∈ [.add, .sub, .mul, .div])
    (hs : s.IsSingle) (ht : t.IsSingle) (hx : s.toRat? = some x) (hy : t.toRat? = some y)
    (hdivisor : op = .div → y ≠ 0) :
    single.RoundsTo (exactResult op x y) (floatResult op s t).toSingle := by
  simp only [List.mem_cons, List.not_mem_nil, or_false] at hop
  rcases hop with rfl | rfl | rfl | rfl
  · exact roundsTo_add hs ht hx hy
  · exact roundsTo_sub hs ht hx hy
  · exact roundsTo_mul hs ht hx hy
  · exact roundsTo_div hs ht hx hy (hdivisor rfl)

/-- Where a float takes part, and in every division, the value is that of the floats. -/
theorem numberResult_eq {op : BinaryOperator}
    (hfloat : op = .div ∨ a.type = .float ∨ b.type = .float) (s t : Floating) :
    numberResult op a b s t = .float (floatResult op s t).toSingle := by
  unfold numberResult
  split
  · rw [if_pos (by simpa [type] using hfloat)]
    rfl
  · rfl

/-- The operators are applied to the singles that their operands are converted to. -/
theorem binary_eq_arithmetic {op : BinaryOperator} (hop : op ∈ [.add, .sub, .mul, .div])
    (ha : a.CountsAs x) (hb : b.CountsAs y) (hdivisor : op = .div → y ≠ 0)
    (hs : a.toSingle? = some s) (ht : b.toSingle? = some t) (left right : Span) :
    binary op a b left right = .ok (numberResult op a b s t) := by
  simp only [List.mem_cons, List.not_mem_nil, or_false] at hop
  rcases hop with rfl | rfl | rfl | rfl
  · rw [binary, if_neg (not_or.mpr ⟨ha.type_ne_text, hb.type_ne_text⟩)]
    simp [arithmetic, hs, ht, isOrder]
  · simp [binary, arithmetic, hs, ht, isOrder]
  · simp [binary, arithmetic, hs, ht, isOrder]
  · simp [binary, arithmetic, hs, ht, isOrder, hb.isZero (hdivisor rfl)]

/-- Float arithmetic is single-precision arithmetic. A sum, difference or product of numbers of
which one is a float, and a quotient of any numbers, is computed in double precision and brought to
single precision; the value is the exact result of the operands rounded once, and nothing else is
(up to the sign of a zero). -/
theorem binary_roundsTo {op : BinaryOperator} (hop : op ∈ [.add, .sub, .mul, .div])
    (ha : a.CountsAs x) (hb : b.CountsAs y)
    (hfloat : op = .div ∨ a.type = .float ∨ b.type = .float) (hdivisor : op = .div → y ≠ 0)
    (left right : Span) :
    ∃ v, binary op a b left right = .ok (.float v) ∧ single.RoundsTo (exactResult op x y) v ∧
      ∀ w, single.RoundsTo (exactResult op x y) w →
        w = v ∨ (w.isZero = true ∧ v.isZero = true) := by
  obtain ⟨s, hs, hx⟩ := ha
  obtain ⟨t, ht, hy⟩ := hb
  have hrounds : single.RoundsTo (exactResult op x y) (floatResult op s t).toSingle :=
    roundsTo_floatResult hop (isSingle_of_toSingle? hs) (isSingle_of_toSingle? ht) hx hy hdivisor
  refine ⟨_, ?_, hrounds, fun w hw => hrounds.unique (by decide) hw⟩
  rw [binary_eq_arithmetic hop ⟨s, hs, hx⟩ ⟨t, ht, hy⟩ hdivisor hs ht, numberResult_eq hfloat]

/-- A quotient on the coarsest grid: three least units divided by two are halfway between one and
two of them, and the even number of units is the value. -/
theorem binary_roundsTo_least_units :
    let a := Value.float (.finite (3 * pow2 (-149)))
    let b := Value.integer 2
    let span : Span := ⟨1, 1, 2, by decide⟩
    a.CountsAs (3 * pow2 (-149)) ∧ b.CountsAs 2 ∧
      binary .div a b span span = .ok (.float (.finite (pow2 (-148)))) ∧
      single.RoundsTo (3 * pow2 (-149) / 2) (.finite (pow2 (-148))) := by
  intro a b span
  have ha : a.CountsAs (3 * pow2 (-149)) :=
    ⟨.finite (3 * pow2 (-149)), by decide +kernel, rfl⟩
  have hb : b.CountsAs 2 := ⟨.finite 2, by decide +kernel, rfl⟩
  have hvalue : binary .div a b span span = .ok (.float (.finite (pow2 (-148)))) := by
    decide +kernel
  obtain ⟨v, hv, hrounds, -⟩ : ∃ v, binary .div a b span span = .ok (.float v) ∧
      single.RoundsTo (exactResult .div (3 * pow2 (-149)) 2) v ∧ _ :=
    binary_roundsTo (by simp) ha hb (.inl rfl) (by simp) span span
  rw [hvalue] at hv
  obtain rfl := Value.float.inj (Except.ok.inj hv)
  exact ⟨ha, hb, hvalue, hrounds⟩

end Value

end DialogScript
