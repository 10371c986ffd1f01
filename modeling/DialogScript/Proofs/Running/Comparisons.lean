import DialogScript.Proofs.Running.Arithmetic
import DialogScript.Proofs.Running.SingleArithmetic

/-!
# Comparisons

Numbers are compared by the difference of the singles that they are converted to. The difference is
computed in double precision, brought to single precision and compared with the tolerance, which is
the least positive single. All singles are multiples of the tolerance, so the rounding of the
difference does not show (`Format.onGrid_least`): `<=` and `>=` are exact, and `<` and `>` miss only
operands that are the tolerance apart (`Value.comparison_of_countsAs`).

Two integers may be converted to the same single. Unless they are different and do so, all
comparisons agree with the order of integers; otherwise none of `<`, `==` and `>` holds
(`Value.integer_comparisons`).

Equality treats integers exactly and all other numbers as singles. It is symmetric, it is reflexive
but on infinite and undefined floats, and the only chains that it does not close lead from one
integer over a float to another integer (`Value.equal_laws`).
-/

namespace DialogScript

namespace Value

open Floating Format

/-- The comparison of two values comes to a truth value, wherever the values come from. -/
def ComesTo (op : BinaryOperator) (a b : Value) (truth : Bool) : Prop :=
  ∀ left right : Span, binary op a b left right = .ok (.boolean truth)

private theorem ComesTo.of_eq {op : BinaryOperator} {a b : Value} {p q : Bool}
    (h : ComesTo op a b p)
    (hpq : p = q) : ComesTo op a b q := hpq ▸ h

/-- A comparison comes to one truth value only. -/
theorem ComesTo.true_iff {op : BinaryOperator} {a b : Value} {p : Prop} [Decidable p]
    (h : ComesTo op a b (decide p)) : ComesTo op a b true ↔ p := by
  refine ⟨fun htrue => ?_, fun hp => h.of_eq (decide_eq_true hp)⟩
  let span : Span := ⟨1, 1, 2, by decide⟩
  have hsame := (h span span).symm.trans (htrue span span)
  exact of_decide_eq_true (Value.boolean.inj (Except.ok.inj hsame))

/-- What a comparison of the order says about two singles: the strict ones hold only if the singles
are more than the tolerance apart. -/
def ordersSingles (op : BinaryOperator) (x y : Rat) : Bool :=
  match op with
  | .greater => decide (pow2 (-149) < x - y)
  | .less => decide (pow2 (-149) < y - x)
  | .greaterOrEqual => decide (y ≤ x)
  | _ => decide (x ≤ y)

variable {a b c : Value} {s t : Floating} {x y : Rat} {op : BinaryOperator}

/-! ### Differences -/

private theorem abs_tolerance_lt : |pow2 (-149)| < pow2 single.overflowExponent := by
  rw [abs_of_pos (pow2_pos _), pow2_lt_pow2]
  decide

section Difference

variable (hs : s.IsSingle) (ht : t.IsSingle) (hx : s.toRat? = some x) (hy : t.toRat? = some y)
include hs ht hx hy

/-- The rounding of the difference of two singles does not show where it is compared with the
tolerance. -/
theorem onGrid_sub :
    (pow2 (-149) < single.onGrid (x - y) ↔ pow2 (-149) < x - y) ∧
      (single.onGrid (x - y) < -pow2 (-149) ↔ pow2 (-149) < y - x) ∧
      (-pow2 (-149) < single.onGrid (x - y) ↔ y ≤ x) ∧
      (single.onGrid (x - y) < pow2 (-149) ↔ x ≤ y) := by
  obtain ⟨m, hm⟩ := (hs.spans hx).least_multiple
  obtain ⟨n, hn⟩ := (ht.spans hy).least_multiple
  have hsub : x - y = (m - n : Int) * pow2 single.leastExponent := by
    rw [hm, hn]
    push_cast
    ring
  have hopposite : y - x = (n - m : Int) * pow2 single.leastExponent := by
    rw [hm, hn]
    push_cast
    ring
  obtain ⟨hmore, hless⟩ := onGrid_least (by decide) hsub
  obtain ⟨hmore', hless'⟩ := onGrid_least (by decide) hopposite
  rw [← neg_sub x y, onGrid_neg, neg_sub] at hmore' hless'
  refine ⟨hmore, ?_, ?_, ?_⟩
  · rw [lt_neg]
    exact hmore'
  · rw [neg_lt, ← sub_nonpos]
    exact hless'
  · rw [← sub_nonpos]
    exact hless

/-- The comparisons of the order look at the singles as they are. -/
theorem compareBy_difference (hop : isOrder op = true) :
    compareBy op (difference s t) = ordersSingles op x y := by
  have hrounds : single.RoundsTo (x - y) (difference s t) := roundsTo_sub hs ht hx hy
  have hopposite : |(-pow2 (-149))| < pow2 single.overflowExponent := by
    rw [abs_neg]
    exact abs_tolerance_lt
  obtain ⟨hgreater, hless, hnotless, hnotgreater⟩ := onGrid_sub hs ht hx hy
  cases op with
  | greater =>
    exact (hrounds.finite_lt (by decide) abs_tolerance_lt).trans (decide_eq_decide.mpr hgreater)
  | less =>
    exact (hrounds.lt_finite (by decide) hopposite).trans (decide_eq_decide.mpr hless)
  | greaterOrEqual =>
    exact (hrounds.finite_lt (by decide) hopposite).trans (decide_eq_decide.mpr hnotless)
  | lessOrEqual =>
    exact (hrounds.lt_finite (by decide) abs_tolerance_lt).trans (decide_eq_decide.mpr hnotgreater)
  | and | or | xor | equal | notEqual | add | sub | mul | div | mod => cases hop

private theorem abs_difference_lt : (difference s t).abs.lt tolerance = decide (x = y) := by
  have hrounds : single.RoundsTo (x - y) (difference s t) := roundsTo_sub hs ht hx hy
  obtain ⟨-, -, hnotless, hnotgreater⟩ := onGrid_sub hs ht hx hy
  refine (hrounds.abs_lt_finite (by decide) abs_tolerance_lt).trans (decide_eq_decide.mpr ?_)
  rw [abs_lt, hnotless, hnotgreater, le_antisymm_iff, and_comm]

end Difference

/-- What has no exact value has no difference from anything. -/
theorem difference_of_none (h : s.toRat? = none ∨ t.toRat? = none) :
    difference s t = .nan ∨ ∃ negative, difference s t = .infinite negative := by
  cases s with
  | nan => exact .inl rfl
  | infinite p =>
    cases t with
    | nan => exact .inl rfl
    | infinite q => cases p <;> cases q <;> simp [difference, sub, neg, add, toSingle, narrow]
    | zero | finite => exact .inr ⟨p, rfl⟩
  | zero | finite =>
    cases t with
    | nan => exact .inl rfl
    | infinite q => exact .inr ⟨!q, rfl⟩
    | zero | finite => simp [toRat?] at h

private theorem abs_difference_lt_of_none (h : s.toRat? = none ∨ t.toRat? = none) :
    (difference s t).abs.lt tolerance = false := by
  obtain hnan | ⟨negative, hinfinite⟩ := difference_of_none h
  · rw [hnan]
    rfl
  · rw [hinfinite]
    cases negative <;> rfl

/-! ### Operators -/

private theorem comesTo_order (hop : isOrder op = true) (ha : a.CountsAs x) (hb : b.CountsAs y) :
    ComesTo op a b (ordersSingles op x y) := by
  intro left right
  obtain ⟨s, hs, hx⟩ := ha
  obtain ⟨t, ht, hy⟩ := hb
  have harithmetic : binary op a b left right = arithmetic op a b left right := by
    cases op <;> first | rfl | cases hop
  rw [harithmetic, arithmetic, hs, ht]
  simp only [hop, if_true]
  rw [compareBy_difference (isSingle_of_toSingle? hs) (isSingle_of_toSingle? ht) hx hy hop]

/-! ### Equality -/

/-- Numbers that are not both integers are equal if they count as the same single. -/
theorem abs_difference_lt_iff (hs : a.toSingle? = some s) (ht : b.toSingle? = some t) :
    (difference s t).abs.lt tolerance = true ↔ ∃ x, a.CountsAs x ∧ b.CountsAs x := by
  have hexact : ∀ {v : Value} {w : Floating} {z : Rat}, v.toSingle? = some w →
      (v.CountsAs z ↔ w.toRat? = some z) := by
    intro v w z hw
    simp only [CountsAs, hw, Option.some.injEq, exists_eq_left']
  simp only [hexact hs, hexact ht]
  cases hx : s.toRat? with
  | none => simp [abs_difference_lt_of_none (.inl hx)]
  | some x =>
    cases hy : t.toRat? with
    | none => simp [abs_difference_lt_of_none (.inr hy)]
    | some y =>
      rw [abs_difference_lt (isSingle_of_toSingle? hs) (isSingle_of_toSingle? ht) hx hy]
      simp [eq_comm]

private theorem equal_iff : equal a b = true ↔ (a = b ∧ a.type ≠ .float) ∨
    (¬ (a.type = .integer ∧ b.type = .integer) ∧ ∃ x, a.CountsAs x ∧ b.CountsAs x) := by
  cases a with
  | integer m =>
    cases b with
    | integer n => simp [equal, type]
    | float z =>
      exact (abs_difference_lt_iff (a := .integer m) (b := .float z) rfl rfl).trans (by simp [type])
    | text | boolean => simp [equal, toSingle?]
  | float y =>
    cases b with
    | integer n =>
      exact (abs_difference_lt_iff (a := .float y) (b := .integer n) rfl rfl).trans (by simp [type])
    | float z =>
      exact (abs_difference_lt_iff (a := .float y) (b := .float z) rfl rfl).trans (by simp [type])
    | text | boolean => simp [equal, toSingle?]
  | text s => cases b <;> simp [equal, toSingle?, type]
  | boolean p => cases b <;> simp [equal, toSingle?, type]

/-- Numbers that are not both integers are compared as singles. -/
theorem equal_eq (ha : a.CountsAs x) (hb : b.CountsAs y)
    (hmixed : ¬ (a.type = .integer ∧ b.type = .integer)) : equal a b = decide (x = y) := by
  rw [Bool.eq_iff_iff, equal_iff, decide_eq_true_eq]
  constructor
  · rintro (⟨rfl, hfloat⟩ | ⟨-, z, hx, hy⟩)
    · exact ha.unique hb
    · rw [ha.unique hx, hb.unique hy]
  · rintro rfl
    exact .inr ⟨hmixed, x, ha, hb⟩

/-! ### Integers -/

private theorem abs_toInt_le_pow2 (n : Int32) : |(n.toInt : Rat)| ≤ pow2 31 := by
  rw [show pow2 31 = 2 ^ 31 from zpow_natCast 2 31]
  exact_mod_cast abs_toInt_le n

/-- An integer is converted to the single nearest to it. -/
theorem countsAs_integer (n : Int32) : (Value.integer n).CountsAs (single.onGrid n.toInt) := by
  have hdouble : double.Spans n.toInt :=
    spans_intCast ((abs_toInt_le n).trans_lt (by decide)) (by decide)
  refine ⟨single.round n.toInt, ?_, toRat?_round ?_⟩
  · exact congrArg some (toSingle_round (throughDouble_of_double hdouble.onGrid))
  · rw [abs_onGrid]
    calc single.onGrid |(n.toInt : Rat)| ≤ single.onGrid (pow2 31) :=
          onGrid_monotone (by decide) (abs_toInt_le_pow2 n)
      _ = pow2 31 := onGrid_pow2 (by decide) (by decide)
      _ < pow2 single.overflowExponent := pow2_lt_pow2.mpr (by decide)

/-- Integers up to `2 ^ 24` in magnitude are singles. -/
theorem onGrid_intCast {n : Int} (hn : |n| ≤ 2 ^ 24) : single.onGrid n = n := by
  rcases hn.lt_or_eq with hless | heq
  · exact (spans_intCast hless (by decide)).onGrid
  · refine onGrid_of_abs_eq_pow2 (k := 24) (by decide) (by decide) ?_
    rw [show pow2 24 = 2 ^ 24 from zpow_natCast 2 24]
    exact_mod_cast heq

/-- The single nearest to an integer is an integer. -/
theorem exists_onGrid_intCast (n : Int) : ∃ m : Int, single.onGrid n = m := by
  rcases le_total (single.gridExponent n) 0 with hle | hle
  · exact ⟨n, onGrid_of_multiple (m := n) (by simp [pow2]) hle⟩
  · obtain ⟨m, hm⟩ := exists_eq_mul_pow2 (q := single.onGrid n) rfl hle
    exact ⟨m, by simpa [pow2] using hm⟩

/-- All comparisons of two values say what holds of two integers. -/
structure OrderedAs (a b : Value) (m n : Int) : Prop where
  equal : ComesTo .equal a b (decide (m = n))
  notEqual : ComesTo .notEqual a b (decide (m ≠ n))
  less : ComesTo .less a b (decide (m < n))
  greater : ComesTo .greater a b (decide (n < m))
  lessOrEqual : ComesTo .lessOrEqual a b (decide (m ≤ n))
  greaterOrEqual : ComesTo .greaterOrEqual a b (decide (n ≤ m))

/-- The comparisons of two values are a consistent order: exactly one of `<`, `==` and `>` holds,
and each of `<=` and `>=` holds if one of its two parts does. -/
structure ConsistentlyOrdered (a b : Value) : Prop where
  exactlyOne : ComesTo .less a b true ∧ ¬ ComesTo .equal a b true ∧ ¬ ComesTo .greater a b true ∨
    ¬ ComesTo .less a b true ∧ ComesTo .equal a b true ∧ ¬ ComesTo .greater a b true ∨
    ¬ ComesTo .less a b true ∧ ¬ ComesTo .equal a b true ∧ ComesTo .greater a b true
  lessOrEqual : ComesTo .lessOrEqual a b true ↔ ComesTo .less a b true ∨ ComesTo .equal a b true
  greaterOrEqual :
    ComesTo .greaterOrEqual a b true ↔ ComesTo .greater a b true ∨ ComesTo .equal a b true

private theorem OrderedAs.consistentlyOrdered {m n : Int} (h : OrderedAs a b m n) :
    ConsistentlyOrdered a b := by
  constructor <;>
    simp only [h.less.true_iff, h.equal.true_iff, h.greater.true_iff, h.lessOrEqual.true_iff,
      h.greaterOrEqual.true_iff] <;>
    omega

/-- Two integers are told apart unless they are different and count as the same single. -/
def ToldApart (m n : Int32) : Prop :=
  ∀ x, (Value.integer m).CountsAs x → (Value.integer n).CountsAs x → m = n

section Integers

variable {m n : Int32}

private theorem toldApart_of_le (hm : |m.toInt| ≤ 2 ^ 24) (hn : |n.toInt| ≤ 2 ^ 24) :
    ToldApart m n := by
  intro x hx hy
  have hsame := (countsAs_integer m).unique hx
  rw [← (countsAs_integer n).unique hy, onGrid_intCast hm, onGrid_intCast hn] at hsame
  exact Int32.toInt_inj.mp (by exact_mod_cast hsame)

theorem ToldApart.symm (h : ToldApart m n) : ToldApart n m := fun x hn hm => (h x hm hn).symm

/-- The singles of integers that are told apart are ordered as the integers are, and different ones
are more than the tolerance apart. -/
theorem ToldApart.lt_sub_iff (h : ToldApart m n) :
    pow2 (-149) < single.onGrid n.toInt - single.onGrid m.toInt ↔ m.toInt < n.toInt := by
  constructor
  · intro hless
    by_contra hle
    have hmono : single.onGrid n.toInt ≤ single.onGrid m.toInt :=
      onGrid_monotone (by decide) (by exact_mod_cast not_lt.mp hle)
    linarith [pow2_pos (-149)]
  · intro hless
    have hmono : single.onGrid m.toInt ≤ single.onGrid n.toInt :=
      onGrid_monotone (by decide) (by exact_mod_cast hless.le)
    have hne : single.onGrid m.toInt ≠ single.onGrid n.toInt := by
      intro heq
      have hsame := h _ (countsAs_integer m) (heq ▸ countsAs_integer n)
      exact absurd (congrArg Int32.toInt hsame) hless.ne
    obtain ⟨p, hp⟩ := exists_onGrid_intCast m.toInt
    obtain ⟨q, hq⟩ := exists_onGrid_intCast n.toInt
    rw [hp, hq] at hmono hne ⊢
    have hapart : (1 : Rat) ≤ q - p := by
      have hlt : p < q := by exact_mod_cast lt_of_le_of_ne hmono hne
      exact_mod_cast (by omega : 1 ≤ q - p)
    exact (show pow2 (-149) < pow2 0 from pow2_lt_pow2.mpr (by decide)).trans_le hapart

private theorem ToldApart.le_iff (h : ToldApart m n) :
    single.onGrid m.toInt ≤ single.onGrid n.toInt ↔ m.toInt ≤ n.toInt := by
  constructor
  · intro hle
    by_contra hless
    have := h.symm.lt_sub_iff.mpr (not_le.mp hless)
    linarith [pow2_pos (-149)]
  · intro hle
    exact onGrid_monotone (by decide) (by exact_mod_cast hle)

private theorem equal_integer (m n : Int32) :
    equal (.integer m) (.integer n) = decide (m.toInt = n.toInt) := by
  rw [Bool.eq_iff_iff, decide_eq_true_eq, Int32.toInt_inj]
  exact beq_iff_eq

/-- The comparisons of integers that are told apart agree with their order. -/
theorem ToldApart.orderedAs (h : ToldApart m n) :
    OrderedAs (.integer m) (.integer n) m.toInt n.toInt where
  equal _ _ := by rw [binary, equal_integer]
  notEqual _ _ := by rw [binary, equal_integer, decide_not]
  less := (comesTo_order rfl (countsAs_integer m) (countsAs_integer n)).of_eq
    (decide_eq_decide.mpr h.lt_sub_iff)
  greater := (comesTo_order rfl (countsAs_integer m) (countsAs_integer n)).of_eq
    (decide_eq_decide.mpr h.symm.lt_sub_iff)
  lessOrEqual := (comesTo_order rfl (countsAs_integer m) (countsAs_integer n)).of_eq
    (decide_eq_decide.mpr h.le_iff)
  greaterOrEqual := (comesTo_order rfl (countsAs_integer m) (countsAs_integer n)).of_eq
    (decide_eq_decide.mpr h.symm.le_iff)

end Integers

/-! ### What the tolerance does -/

/-- Different singles are at least the tolerance apart. -/
theorem CountsAs.tolerance_le (ha : a.CountsAs x) (hb : b.CountsAs y) (hless : y < x) :
    pow2 (-149) < x - y ∨ x - y = pow2 (-149) := by
  obtain ⟨m, hm⟩ := ha.spans.least_multiple
  obtain ⟨n, hn⟩ := hb.spans.least_multiple
  have hapart := add_unit_le hn hm hless
  rw [show single.leastExponent = -149 from rfl] at hapart
  rcases hapart.lt_or_eq with hlt | heq
  · exact .inl (by linarith)
  · exact .inr (by linarith)

/-- Numbers are compared as the singles that they count as. The comparisons `>=` and `<=` are exact,
and so is `==` unless both numbers are integers; `>` and `<` ask for more than the tolerance. So all
comparisons of integers up to `2 ^ 24` in magnitude agree with their order, and `>` and `<` miss
only numbers that are the tolerance apart. -/
theorem comparison_of_countsAs (ha : a.CountsAs x) (hb : b.CountsAs y) :
    ComesTo .greaterOrEqual a b (decide (y ≤ x)) ∧
    ComesTo .lessOrEqual a b (decide (x ≤ y)) ∧
    ComesTo .greater a b (decide (pow2 (-149) < x - y)) ∧
    ComesTo .less a b (decide (pow2 (-149) < y - x)) ∧
    (¬ (a.type = .integer ∧ b.type = .integer) → ComesTo .equal a b (decide (x = y))) ∧
    (∀ m n : Int32, a = .integer m → b = .integer n → |m.toInt| ≤ 2 ^ 24 → |n.toInt| ≤ 2 ^ 24 →
      OrderedAs a b m.toInt n.toInt) ∧
    (y < x → ComesTo .greater a b true ∨ x - y = pow2 (-149)) ∧
    (x < y → ComesTo .less a b true ∨ y - x = pow2 (-149)) := by
  have hgreater : ComesTo .greater a b (decide (pow2 (-149) < x - y)) := comesTo_order rfl ha hb
  have hless : ComesTo .less a b (decide (pow2 (-149) < y - x)) := comesTo_order rfl ha hb
  refine ⟨comesTo_order rfl ha hb, comesTo_order rfl ha hb, hgreater, hless, fun hmixed _ _ => ?_,
    ?_, fun h => ?_, fun h => ?_⟩
  · rw [binary, equal_eq ha hb hmixed]
  · rintro m n rfl rfl hm hn
    exact (toldApart_of_le hm hn).orderedAs
  · exact (ha.tolerance_le hb h).imp_left fun h => hgreater.of_eq (decide_eq_true h)
  · exact (hb.tolerance_le ha h).imp_left fun h => hless.of_eq (decide_eq_true h)

/-- The least positive single is not greater than zero, but not equal to it either; the next one is
greater. -/
theorem comparison_of_least_singles :
    let zero := Value.float (.zero true)
    let least := Value.float (.finite (pow2 (-149)))
    let next := Value.float (.finite (pow2 (-148)))
    ComesTo .greater least zero false ∧ ComesTo .equal least zero false ∧
      ComesTo .greater next zero true ∧ ComesTo .less least next false := by
  intro zero least next
  have hzero : zero.CountsAs 0 := ⟨.zero true, rfl, rfl⟩
  have hleast : least.CountsAs (pow2 (-149)) := ⟨.finite (pow2 (-149)), by decide +kernel, rfl⟩
  have hnext : next.CountsAs (pow2 (-148)) := ⟨.finite (pow2 (-148)), by decide +kernel, rfl⟩
  obtain ⟨-, -, hgreater, -, hequal, -⟩ := comparison_of_countsAs hleast hzero
  obtain ⟨-, -, hgreater', -⟩ := comparison_of_countsAs hnext hzero
  obtain ⟨-, -, -, hless, -⟩ := comparison_of_countsAs hleast hnext
  refine ⟨hgreater.of_eq ?_, (hequal ?_).of_eq ?_, hgreater'.of_eq ?_, hless.of_eq ?_⟩ <;>
    decide +kernel

/-! ### The order of integers -/

section Integers

variable {m n : Int32}

/-- Only integers of more than 24 bits share their single with another one. -/
theorem le_abs_of_onGrid_eq (hne : m ≠ n)
    (hsame : single.onGrid m.toInt = single.onGrid n.toInt) : 2 ^ 24 ≤ |m.toInt| := by
  by_contra hless
  have hless := not_le.mp hless
  rw [onGrid_intCast hless.le] at hsame
  rcases le_or_gt |n.toInt| (2 ^ 24) with hle | hmore
  · rw [onGrid_intCast hle] at hsame
    exact hne (Int32.toInt_inj.mp (by exact_mod_cast hsame))
  · have hpower : pow2 24 = 2 ^ 24 := zpow_natCast 2 24
    have hgrid := pow2_le_abs_onGrid (f := single) (q := (n.toInt : Rat)) (k := 24) (by decide)
      (by decide) (by rw [hpower]; exact_mod_cast hmore.le)
    rw [← hsame, hpower] at hgrid
    have hgrid : 2 ^ 24 ≤ |m.toInt| := by exact_mod_cast hgrid
    omega

/-- No integer is farther than 64 from its single. -/
theorem abs_onGrid_sub_toInt_le (n : Int32) : |single.onGrid n.toInt - n.toInt| ≤ 64 := by
  calc |single.onGrid n.toInt - n.toInt| ≤ pow2 (single.unitExponent 30) / 2 :=
        abs_onGrid_sub_le_unit (by decide) (by decide) (abs_toInt_le_pow2 n)
    _ = pow2 7 / 2 := rfl
    _ = 64 := by norm_num [pow2]

private theorem not_toldApart_iff : ¬ ToldApart m n ↔
    ∃ x, m ≠ n ∧ (Value.integer m).CountsAs x ∧ (Value.integer n).CountsAs x := by
  simp only [ToldApart, not_forall, exists_prop]
  exact exists_congr fun x => by tauto

/-- Integers that are not told apart are large and close to each other. -/
theorem bounds_of_not_toldApart (h : ¬ ToldApart m n) :
    2 ^ 24 ≤ |m.toInt| ∧ 2 ^ 24 ≤ |n.toInt| ∧ |m.toInt - n.toInt| ≤ 128 := by
  obtain ⟨x, hne, hm, hn⟩ := not_toldApart_iff.mp h
  have hsame : single.onGrid m.toInt = single.onGrid n.toInt :=
    ((countsAs_integer m).unique hm).trans ((countsAs_integer n).unique hn).symm
  refine ⟨le_abs_of_onGrid_eq hne hsame, le_abs_of_onGrid_eq hne.symm hsame.symm, ?_⟩
  have hleft := abs_onGrid_sub_toInt_le m
  rw [abs_sub_comm, hsame] at hleft
  have hright := abs_onGrid_sub_toInt_le n
  have htriangle := abs_sub_le (m.toInt : Rat) (single.onGrid n.toInt) n.toInt
  have hdistance : |(m.toInt : Rat) - n.toInt| ≤ 128 := by linarith
  exact_mod_cast hdistance

/-- Where different integers count as the same single, neither `<` nor `==` nor `>` holds, but both
`<=` and `>=` do. -/
theorem comesTo_of_not_toldApart (h : ¬ ToldApart m n) :
    ComesTo .less (.integer m) (.integer n) false ∧
      ComesTo .equal (.integer m) (.integer n) false ∧
      ComesTo .greater (.integer m) (.integer n) false ∧
      ComesTo .lessOrEqual (.integer m) (.integer n) true ∧
      ComesTo .greaterOrEqual (.integer m) (.integer n) true := by
  obtain ⟨x, hne, hm, hn⟩ := not_toldApart_iff.mp h
  have hequal : equal (.integer m) (.integer n) = false := by
    rw [equal_integer]
    exact decide_eq_false (mt Int32.toInt_inj.mp hne)
  have hnear : ¬ pow2 (-149) < x - x := by
    rw [sub_self]
    exact (pow2_pos _).le.not_gt
  exact ⟨(comesTo_order rfl hm hn).of_eq (decide_eq_false hnear),
    fun _ _ => by rw [binary, hequal],
    (comesTo_order rfl hm hn).of_eq (decide_eq_false hnear),
    (comesTo_order rfl hm hn).of_eq (decide_eq_true le_rfl),
    (comesTo_order rfl hm hn).of_eq (decide_eq_true le_rfl)⟩

/-- The comparisons of two integers are a consistent order that agrees with the order of integers.
Only where different integers count as the same single, which are at least `2 ^ 24` in magnitude and
at most 128 apart, none of `<`, `==` and `>` holds, while `<=` and `>=` both do. -/
theorem integer_comparisons (m n : Int32) :
    (ToldApart m n →
      ConsistentlyOrdered (.integer m) (.integer n) ∧
      OrderedAs (.integer m) (.integer n) m.toInt n.toInt) ∧
    (¬ ToldApart m n →
      (ComesTo .less (.integer m) (.integer n) false ∧
        ComesTo .equal (.integer m) (.integer n) false ∧
        ComesTo .greater (.integer m) (.integer n) false ∧
        ComesTo .lessOrEqual (.integer m) (.integer n) true ∧
        ComesTo .greaterOrEqual (.integer m) (.integer n) true) ∧
      2 ^ 24 ≤ |m.toInt| ∧ 2 ^ 24 ≤ |n.toInt| ∧ |m.toInt - n.toInt| ≤ 128) :=
  ⟨fun h => ⟨h.orderedAs.consistentlyOrdered, h.orderedAs⟩,
    fun h => ⟨comesTo_of_not_toldApart h, bounds_of_not_toldApart h⟩⟩

/-- The integers on both sides of `2 ^ 24` are told apart from each other, but the next one is not
told apart from it. -/
theorem integer_comparisons_beyond_singles :
    (ToldApart 16777215 16777217 ∧
      ComesTo .less (.integer 16777215) (.integer 16777217) true) ∧
    (¬ ToldApart 16777216 16777217 ∧
      ComesTo .less (.integer 16777216) (.integer 16777217) false) := by
  have hbelow : (Value.integer 16777215).CountsAs 16777215 :=
    ⟨.finite 16777215, by decide +kernel, rfl⟩
  have hpower : (Value.integer 16777216).CountsAs 16777216 :=
    ⟨.finite 16777216, by decide +kernel, rfl⟩
  have habove : (Value.integer 16777217).CountsAs 16777216 :=
    ⟨.finite 16777216, by decide +kernel, rfl⟩
  have happart : ToldApart 16777215 16777217 := by
    intro x hx hy
    have := (hbelow.unique hx).trans (hy.unique habove)
    norm_num at this
  have hsame : ¬ ToldApart 16777216 16777217 := fun h => absurd (h _ hpower habove) (by decide)
  exact ⟨⟨happart, ((integer_comparisons _ _).1 happart).2.less⟩, hsame,
    ((integer_comparisons _ _).2 hsame).1.1⟩

/-- An integer that is not told apart from a smaller one is neither less than it nor equal to it nor
greater than it, while both `<=` and `>=` hold. -/
theorem integer_comparisons_none_holds :
    let a := Value.integer 16777217
    let b := Value.integer 16777216
    let span : Span := ⟨1, 1, 2, by decide⟩
    (∀ op ∈ [BinaryOperator.less, .equal, .greater],
      binary op a b span span = .ok (.boolean false)) ∧
    ∀ op ∈ [BinaryOperator.lessOrEqual, .greaterOrEqual],
      binary op a b span span = .ok (.boolean true) := by
  decide +kernel

end Integers

/-! ### The laws of equality -/

private theorem equal_comm (a b : Value) : equal a b = equal b a := by
  have hswap : ∀ {a b : Value}, equal a b = true → equal b a = true := by
    intro a b h
    rw [equal_iff] at h ⊢
    obtain ⟨rfl, hfloat⟩ | ⟨hmixed, x, ha, hb⟩ := h
    · exact .inl ⟨rfl, hfloat⟩
    · exact .inr ⟨mt And.symm hmixed, x, hb, ha⟩
  exact Bool.eq_iff_iff.mpr ⟨hswap, hswap⟩

/-- A float of single precision counts as its exact value. -/
theorem Proper.countsAs_float (h : (Value.float s).Proper) (hx : s.toRat? = some x) :
    (Value.float s).CountsAs x :=
  ⟨s, congrArg some h, hx⟩

private theorem equal_self (h : a.Proper) (hnan : a ≠ .float .nan)
    (hinfinite : ∀ negative, a ≠ .float (.infinite negative)) : equal a a = true := by
  rw [equal_iff]
  cases a with
  | integer | text | boolean => exact .inl ⟨rfl, by simp [type]⟩
  | float z =>
    refine .inr ⟨by simp [type], ?_⟩
    cases z with
    | nan => exact absurd rfl hnan
    | infinite negative => exact absurd rfl (hinfinite negative)
    | zero => exact ⟨0, h.countsAs_float rfl, h.countsAs_float rfl⟩
    | finite q => exact ⟨q, h.countsAs_float rfl, h.countsAs_float rfl⟩

private theorem exists_eq_integer (h : a.type = .integer) : ∃ n, a = .integer n := by
  cases a with
  | integer n => exact ⟨n, rfl⟩
  | float | text | boolean => cases h

/-- A chain of two equalities is closed, or it leads over a float from one integer to another one
with the same single. -/
theorem equal_trans_or (hab : equal a b = true) (hbc : equal b c = true) :
    equal a c = true ∨ ∃ m n z x, a = .integer m ∧ b = .float z ∧ c = .integer n ∧ m ≠ n ∧
      a.CountsAs x ∧ b.CountsAs x ∧ c.CountsAs x := by
  obtain ⟨rfl, -⟩ | ⟨hleft, x, ha, hb⟩ := equal_iff.mp hab
  · exact .inl hbc
  obtain ⟨rfl, -⟩ | ⟨hright, y, hb', hc⟩ := equal_iff.mp hbc
  · exact .inl hab
  obtain rfl := hb.unique hb'
  by_cases hends : a.type = .integer ∧ c.type = .integer
  · -- The ends are compared as integers, but each of them with the middle as singles.
    obtain ⟨m, rfl⟩ := exists_eq_integer hends.1
    obtain ⟨n, rfl⟩ := exists_eq_integer hends.2
    cases b with
    | integer => exact absurd ⟨rfl, rfl⟩ hleft
    | text | boolean => simp at hb
    | float z =>
      rcases eq_or_ne m n with rfl | hne
      · exact .inl (equal_self trivial (by simp) (by simp))
      · exact .inr ⟨m, n, z, x, rfl, rfl, rfl, hne, ha, hb, hc⟩
  · exact .inl (equal_iff.mpr (.inr ⟨hends, x, ha, hc⟩))

/-- The laws of equality. It is reflexive on all values but infinite and undefined floats, it is
symmetric, and it is transitive except for chains that lead from one integer over a float to another
integer; these integers are converted to the float, which makes them large and close to each
other. -/
theorem equal_laws :
    (∀ a : Value, a.Proper → a ≠ .float .nan → (∀ negative, a ≠ .float (.infinite negative)) →
      equal a a = true) ∧
    (∀ a b : Value, equal a b = equal b a) ∧
    ∀ a b c : Value, equal a b = true → equal b c = true →
      equal a c = true ∨ ∃ m n z x, a = .integer m ∧ b = .float z ∧ c = .integer n ∧ m ≠ n ∧
        (a.CountsAs x ∧ b.CountsAs x ∧ c.CountsAs x) ∧
        2 ^ 24 ≤ |m.toInt| ∧ 2 ^ 24 ≤ |n.toInt| ∧ |m.toInt - n.toInt| ≤ 128 := by
  refine ⟨fun a => equal_self, equal_comm, fun a b c hab hbc => ?_⟩
  refine (equal_trans_or hab hbc).imp_right ?_
  rintro ⟨m, n, z, x, rfl, rfl, rfl, hne, hm, hz, hn⟩
  exact ⟨m, n, z, x, rfl, rfl, rfl, hne, ⟨hm, hz, hn⟩,
    bounds_of_not_toldApart (not_toldApart_iff.mpr ⟨x, hne, hm, hn⟩)⟩

/-- A float is equal to itself, and the chain over the float `2 ^ 24` from the integer above it to
the integer `2 ^ 24` is not closed: both have the same single. -/
theorem equal_laws_around_singles :
    let half := Value.float (.finite (1 / 2))
    let power := Value.float (.finite 16777216)
    equal half half = true ∧ equal power half = equal half power ∧
      equal (.integer 16777217) power = true ∧ equal power (.integer 16777216) = true ∧
      ∃ x, (Value.integer 16777217).CountsAs x ∧ (Value.integer 16777216).CountsAs x := by
  intro half power
  have hsingle : (Floating.finite (1 / 2)).toSingle = .finite (1 / 2) := by decide +kernel
  have hleft : equal (.integer 16777217) power = true := by decide +kernel
  have hright : equal power (.integer 16777216) = true := by decide +kernel
  refine ⟨equal_laws.1 half hsingle (by decide) (by simp [half]), equal_laws.2.1 power half, hleft,
    hright, ?_⟩
  obtain hclosed | ⟨-, -, -, x, -, -, -, -, ⟨hm, -, hn⟩, -⟩ := equal_laws.2.2 _ _ _ hleft hright
  · exact absurd hclosed (by decide)
  · exact ⟨x, hm, hn⟩

/-- Two integers are equal to one float and not to each other; and an infinite float is not equal to
itself. -/
theorem equal_laws_fail :
    (equal (.integer 16777217) (.float (.finite 16777216)) = true ∧
      equal (.float (.finite 16777216)) (.integer 16777216) = true ∧
      equal (.integer 16777217) (.integer 16777216) = false) ∧
    equal (.float (.infinite false)) (.float (.infinite false)) = false := by
  decide +kernel

end Value

end DialogScript
