import DialogScript.Number.Arithmetic
import DialogScript.Proofs.Numbers.Nearest
import DialogScript.Proofs.Numbers.TwoRoundings

/-!
# Where the rounding to a double does not show

The numbers halfway between two singles next to each other are doubles, so the rounding to a double
moves nothing across them. Two roundings come to something else than one only if the first one moves
a number onto such a halfway point (`Floating.throughDouble_eq_onGrid`).

It does not move the results of the basic operations on singles there. A sum that is no double has
one operand of at least half its size, and the other one is too small to bring it from there near a
halfway point (`Floating.throughDouble_add`). A product is a double
(`Floating.throughDouble_mul`). A quotient that is no halfway point differs from it by more than the
rounding to a double can bridge, because the dividend differs from the product of halfway point and
divisor by a unit of one of these (`Floating.throughDouble_div`).

So computing in double precision and rounding to single precision rounds the exact result once
(`Floating.roundsTo_add` and its companions).
-/

namespace DialogScript

open Format

namespace Floating

variable {x y z : Rat} {k : Int}

/-! ### Halfway points -/

private theorem half_eq (n e : Int) :
    ((n : Rat) + 1 / 2) * pow2 e = (2 * n + 1 : Int) * pow2 (e - 1) := by
  rw [pow2_sub_one]
  push_cast
  ring

/-- The numbers halfway between two singles next to each other, below a power of two, are
doubles. -/
theorem double_onGrid_of_half {n : Int} (hx : x = (n + 1 / 2) * pow2 (single.unitExponent k))
    (hnonneg : 0 ≤ x) (hless : x < pow2 (k + 1)) : double.onGrid x = x := by
  rw [half_eq] at hx
  rcases hnonneg.eq_or_lt with rfl | hpos
  · exact onGrid_zero _
  · refine onGrid_of_multiple hx ((gridExponent_le_of_lt hpos hless).trans ?_)
    rw [unitExponent_single, unitExponent_double]
    omega

/-- The rounding to a double moves nothing across a halfway point. -/
theorem double_onGrid_between_halves {m n : Int} (hk : single.leastExponent ≤ k) (hz : 0 ≤ z)
    (hless : z < pow2 (k + 1)) (hlow : (m + 1 / 2) * pow2 (single.unitExponent k) ≤ z)
    (hhigh : z ≤ (n + 1 / 2) * pow2 (single.unitExponent k)) :
    (m + 1 / 2) * pow2 (single.unitExponent k) ≤ double.onGrid z ∧
      double.onGrid z ≤ (n + 1 / 2) * pow2 (single.unitExponent k) := by
  have hdouble : double.leastExponent ≤ k + 1 := by
    have : double.leastExponent ≤ single.leastExponent := by decide
    omega
  constructor
  · rcases lt_or_ge (((m : Rat) + 1 / 2) * pow2 (single.unitExponent k)) 0 with hneg | hnonneg
    · exact hneg.le.trans (onGrid_nonneg _ hz)
    · have hmono := onGrid_mono (f := double) (by decide) hnonneg hlow
      rwa [double_onGrid_of_half rfl hnonneg (hlow.trans_lt hless)] at hmono
  · rcases lt_or_ge (((n : Rat) + 1 / 2) * pow2 (single.unitExponent k)) (pow2 (k + 1))
      with hlt | hge
    · have hmono := onGrid_mono (f := double) (by decide) hz hhigh
      rwa [double_onGrid_of_half rfl (hz.trans hhigh) hlt] at hmono
    · have hmono := onGrid_mono (f := double) (by decide) hz hless.le
      rw [onGrid_pow2 (by decide) hdouble] at hmono
      exact hmono.trans hge

/-- A number that the rounding to a double does not move onto a halfway point is rounded as if it
was rounded once. -/
theorem throughDouble_of_clear (hk : single.leastExponent ≤ k) (hz : 0 ≤ z)
    (hlow : pow2 k ≤ z ∨ k = single.leastExponent) (hless : z < pow2 (k + 1))
    (hclear : ∀ n : Int, double.onGrid z ≠ (n + 1 / 2) * pow2 (single.unitExponent k)) :
    throughDouble z = single.onGrid z := by
  have hdouble : double.leastExponent ≤ k := le_trans (by decide) hk
  have hunit := pow2_pos (single.unitExponent k)
  have hhigh : double.onGrid z ≤ pow2 (k + 1) := by
    have hmono := onGrid_mono (f := double) (by decide) hz hless.le
    rwa [onGrid_pow2 (by decide) (by omega)] at hmono
  have hlow' : pow2 k ≤ double.onGrid z ∨ k = single.leastExponent := by
    refine hlow.imp_left fun hle => ?_
    have hmono := onGrid_mono (f := double) (by decide) (pow2_pos k).le hle
    rwa [onGrid_pow2 (by decide) hdouble] at hmono
  rw [throughDouble, onGrid_of_le (by decide) hk (onGrid_nonneg _ hz) hlow' hhigh,
    onGrid_of_le (by decide) hk hz hlow hless.le]
  congr 2
  -- The halfway points below and above the nearest multiple stay below and above it.
  set n := nearestEven (z / pow2 (single.unitExponent k)) with hn
  obtain ⟨hleft, hright⟩ := abs_le.mp (abs_nearestEven_sub_le (z / pow2 (single.unitExponent k)))
  rw [← hn] at hleft hright
  obtain ⟨hle, hge⟩ := double_onGrid_between_halves (m := n - 1) (n := n) hk hz hless
    ((le_div_iff₀ hunit).mp (by push_cast; linarith)) ((div_le_iff₀ hunit).mp (by linarith))
  have hleft := (lt_div_iff₀ hunit).mpr (lt_of_le_of_ne hle (hclear (n - 1)).symm)
  have hright := (div_lt_iff₀ hunit).mpr (lt_of_le_of_ne hge (hclear n))
  push_cast at hleft
  exact nearestEven_eq (abs_lt.mpr ⟨by linarith, by linarith⟩)

private theorem throughDouble_of_neg (h : throughDouble (-z) = single.onGrid (-z)) :
    throughDouble z = single.onGrid z := by
  rw [throughDouble, onGrid_neg, onGrid_neg, onGrid_neg] at h
  exact neg_injective h

private theorem throughDouble_zero : throughDouble 0 = single.onGrid 0 := by
  rw [throughDouble, onGrid_zero]

/-- A double is rounded once. -/
theorem throughDouble_of_double (h : double.onGrid z = z) : throughDouble z = single.onGrid z := by
  rw [throughDouble, h]

/-- Around every positive number there are powers of two of single precision, or it lies below the
least one. -/
theorem exists_around (hz : 0 < z) : ∃ k : Int, single.leastExponent ≤ k ∧
    (pow2 k ≤ z ∨ k = single.leastExponent) ∧ z < pow2 (k + 1) := by
  obtain ⟨hlow, hhigh⟩ := floorLog2_spec hz
  rcases le_total single.leastExponent (floorLog2 z) with hle | hle
  · exact ⟨floorLog2 z, hle, .inl hlow, hhigh⟩
  · exact ⟨_, le_rfl, .inr rfl, hhigh.trans_le (pow2_le_pow2.mpr (by omega))⟩

/-- Two roundings are one if the first one moves nothing onto a halfway point. -/
theorem throughDouble_eq_onGrid (hz : 0 < z)
    (hclear : ∀ k n : Int, single.leastExponent ≤ k → (pow2 k ≤ z ∨ k = single.leastExponent) →
      z < pow2 (k + 1) → double.onGrid z = (n + 1 / 2) * pow2 (single.unitExponent k) →
      double.onGrid z = z) : throughDouble z = single.onGrid z := by
  obtain ⟨k, hk, hlow, hless⟩ := exists_around hz
  by_cases hdouble : double.onGrid z = z
  · exact throughDouble_of_double hdouble
  · exact throughDouble_of_clear hk hz.le hlow hless fun n hn =>
      hdouble (hclear k n hk hlow hless hn)

/-! ### Sums -/

/-- Multiples of a unit that is not below that of doubles around their sum have a sum that is a
double. -/
theorem double_onGrid_add {m n d e : Int} (hx : x = m * pow2 d) (hy : y = n * pow2 e)
    (hpos : 0 < x + y) (hless : x + y < pow2 (k + 1)) (hd : double.unitExponent k ≤ d)
    (he : double.unitExponent k ≤ e) : double.onGrid (x + y) = x + y := by
  obtain ⟨m, hm⟩ := exists_eq_mul_pow2 hx hd
  obtain ⟨n, hn⟩ := exists_eq_mul_pow2 hy he
  refine onGrid_of_multiple (m := m + n) ?_ (gridExponent_le_of_lt hpos hless)
  push_cast
  linarith

/-- A halfway point is no multiple of the unit. -/
theorem half_ne_multiple (m n e : Int) : (m : Rat) * pow2 e ≠ (n + 1 / 2) * pow2 e := by
  intro h
  have h := mul_right_cancel₀ (pow2_pos e).ne' h
  have hint : 2 * m = 2 * n + 1 := by exact_mod_cast (by linarith : (2 : Rat) * m = 2 * n + 1)
  omega

/-- The greater operand of a sum is at least half the sum, and so a multiple of the unit below. -/
theorem greater_multiple (hx : single.Spans x) (hpos : 0 < x + y) (hle : y ≤ x)
    (hlow : pow2 k ≤ x + y ∨ k = single.leastExponent) :
    ∃ a : Int, x = a * pow2 (single.unitExponent (k - 1)) := by
  rcases hlow with hlow | rfl
  · refine hx.multiple ?_
    rw [abs_of_pos (by linarith), pow2_sub_one]
    linarith
  · obtain ⟨a, d, ha, -, hd⟩ := hx
    refine exists_eq_mul_pow2 ha ?_
    rw [unitExponent_single]
    rw [show single.leastExponent = -149 from rfl] at hd ⊢
    omega

/-- A sum is not moved onto a halfway point if its smaller operand is far below it: the greater
operand would be this halfway point. -/
theorem double_onGrid_add_ne_half {a n : Int} (hx : single.Spans x) (ha : x = a * pow2 (k - 24))
    (hsmall : |y| < pow2 (k - 24) / 2) (hk : -125 ≤ k) (hlow : pow2 k ≤ x + y)
    (hless : x + y < pow2 (k + 1)) :
    double.onGrid (x + y) ≠ (n + 1 / 2) * pow2 (single.unitExponent k) := by
  intro hhalf
  have hunit : single.unitExponent k = k - 23 := by
    rw [unitExponent_single]
    omega
  have hleast : double.leastExponent ≤ k := le_trans (by decide) hk
  have herror : |double.onGrid (x + y) - (x + y)| ≤ pow2 (k - 24) / 2 := by
    have hbelow : |x + y| ≤ pow2 (k + 1) := by
      rw [abs_of_pos ((pow2_pos k).trans_le hlow)]
      exact hless.le
    refine (abs_onGrid_sub_le_unit (by decide) (hleast.trans (by omega)) hbelow).trans
      (div_le_div_of_nonneg_right (pow2_le_pow2.mpr ?_) (by norm_num))
    rw [unitExponent_double]
    omega
  have hsame : double.onGrid (x + y) = x := by
    refine eq_of_multiple (by rw [hhalf, half_eq, hunit, sub_sub]; rfl) ha ?_
    calc |double.onGrid (x + y) - x| = |(double.onGrid (x + y) - (x + y)) + y| := by ring_nf
      _ ≤ |double.onGrid (x + y) - (x + y)| + |y| := abs_add_le _ _
      _ < pow2 (k - 24) := by linarith
  have hge := onGrid_mono (f := double) (by decide) (pow2_pos k).le hlow
  rw [onGrid_pow2 (by decide) hleast, hsame] at hge
  obtain ⟨m, hm⟩ := hx.multiple (hge.trans (le_abs_self x))
  exact half_ne_multiple m n _ (hm.symm.trans (hsame.symm.trans hhalf))

private theorem throughDouble_add_of_le (hx : single.Spans x) (hy : single.Spans y)
    (hpos : 0 < x + y)
    (hle : y ≤ x) : throughDouble (x + y) = single.onGrid (x + y) := by
  refine throughDouble_eq_onGrid hpos fun k n hk hlow hless hhalf => ?_
  by_contra hmoved
  obtain ⟨a, ha⟩ := greater_multiple hx hpos hle hlow
  obtain ⟨b, e, hb, hbits, he⟩ := hy
  rw [show single.leastExponent = -149 from rfl] at hlow he
  rw [show single.precision = 24 from rfl] at hbits
  -- The smaller operand is finer than the doubles around the sum, so it is far below the sum.
  have hfiner : e < double.unitExponent k := by
    by_contra hcoarse
    refine hmoved (double_onGrid_add ha hb hpos hless ?_ (not_lt.mp hcoarse))
    rw [unitExponent_single, unitExponent_double]
    omega
  rw [unitExponent_double] at hfiner
  have hunit : single.unitExponent (k - 1) = k - 24 := by
    rw [unitExponent_single]
    omega
  have hsmall : |y| < pow2 (k - 24) / 2 := by
    rw [← pow2_sub_one]
    exact (abs_lt_of_bits hb hbits).trans_le (pow2_le_pow2.mpr (by omega))
  exact double_onGrid_add_ne_half hx (hunit ▸ ha) hsmall (by omega)
    (hlow.resolve_right (by omega)) hless hhalf

/-- The sum of two singles is rounded once. -/
theorem throughDouble_add (hx : single.Spans x) (hy : single.Spans y) :
    throughDouble (x + y) = single.onGrid (x + y) := by
  have hpositive : ∀ {x y : Rat}, single.Spans x → single.Spans y → 0 < x + y →
      throughDouble (x + y) = single.onGrid (x + y) := by
    intro x y hx hy hpos
    rcases le_total y x with hle | hle
    · exact throughDouble_add_of_le hx hy hpos hle
    · rw [add_comm] at hpos ⊢
      exact throughDouble_add_of_le hy hx hpos hle
  rcases lt_trichotomy (x + y) 0 with hneg | hzero | hpos
  · refine throughDouble_of_neg ?_
    rw [neg_add]
    exact hpositive hx.neg hy.neg (by linarith)
  · rw [hzero, throughDouble_zero]
  · exact hpositive hx hy hpos

/-! ### Products -/

/-- The product of two singles is a double. -/
theorem throughDouble_mul (hx : single.Spans x) (hy : single.Spans y) :
    throughDouble (x * y) = single.onGrid (x * y) := by
  refine throughDouble_of_double ?_
  obtain ⟨m, d, hm, hmbits, hd⟩ := hx
  obtain ⟨n, e, hn, hnbits, he⟩ := hy
  by_cases hzero : x * y = 0
  · rw [hzero, onGrid_zero]
  have hproduct : x * y = (m * n : Int) * pow2 (d + e) := by
    rw [hm, hn, pow2_add]
    push_cast
    ring
  have hbits : |m * n| < 2 ^ double.precision := by
    rw [abs_mul]
    calc |m| * |n| ≤ 2 ^ 24 * 2 ^ 24 :=
          mul_le_mul hmbits.le hnbits.le (abs_nonneg n) (by positivity)
      _ < 2 ^ double.precision := by decide
  rw [show single.leastExponent = -149 from rfl] at hd he
  have hleast : double.leastExponent ≤ d + e := by
    rw [show double.leastExponent = -1074 from rfl]
    omega
  exact onGrid_of_multiple hproduct (gridExponent_le hproduct hzero hbits hleast)

/-! ### Quotients -/

/-- The quotient of two positive singles is so great that a double holds all its leading bits. -/
theorem least_le_div (hx : single.Holds x) (hy : single.Holds y) (hxpos : 0 < x) (hypos : 0 < y) :
    pow2 (double.leastExponent + double.precision) ≤ x / y := by
  have hbelow := hy.below
  rw [abs_of_pos hypos] at hbelow
  rw [le_div_iff₀ hypos]
  calc pow2 (double.leastExponent + double.precision) * y
      ≤ pow2 (double.leastExponent + double.precision) * pow2 single.overflowExponent :=
        mul_le_mul_of_nonneg_left hbelow.le (pow2_pos _).le
    _ = pow2 (double.leastExponent + double.precision + single.overflowExponent) :=
        (pow2_add _ _).symm
    _ ≤ pow2 single.leastExponent := pow2_le_pow2.mpr (by decide)
    _ ≤ x := hx.least_le hxpos

/-- Multiplied by the divisor, the quotient as a double misses the dividend by a small part of
it. -/
theorem abs_double_div_mul_sub_le (hx : single.Holds x) (hy : single.Holds y) (hxpos : 0 < x)
    (hypos : 0 < y) : |double.onGrid (x / y) * y - x| ≤ x / 2 ^ 53 := by
  have herror := abs_onGrid_sub_le_div (least_le_div hx hy hxpos hypos)
  calc |double.onGrid (x / y) * y - x| = |double.onGrid (x / y) - x / y| * y := by
        rw [← abs_of_pos hypos, ← abs_mul, abs_of_pos hypos, sub_mul, div_mul_cancel₀ x hypos.ne']
    _ ≤ x / y / 2 ^ 53 * y := mul_le_mul_of_nonneg_right herror hypos.le
    _ = x / 2 ^ 53 := by rw [div_right_comm, div_mul_cancel₀ _ hypos.ne']

/-- The product of a halfway point and a number is a multiple of both their units. -/
theorem half_mul_eq (n b e g : Int) :
    ((n : Rat) + 1 / 2) * pow2 g * (b * pow2 e) = ((2 * n + 1) * b : Int) * pow2 (g - 1 + e) := by
  rw [half_eq, pow2_add]
  push_cast
  ring

private theorem throughDouble_div_of_pos (hx : single.Holds x) (hy : single.Holds y) (hxpos : 0 < x)
    (hypos : 0 < y) : throughDouble (x / y) = single.onGrid (x / y) := by
  refine throughDouble_eq_onGrid (div_pos hxpos hypos) fun k n hk hlow hless hhalf => ?_
  have herror := abs_double_div_mul_sub_le hx hy hxpos hypos
  obtain ⟨a, d, ha, habits, -⟩ := hx.bits
  obtain ⟨b, e, hb, hbbits, -⟩ := hy.bits
  rw [show single.precision = 24 from rfl] at habits hbbits
  have hproduct : double.onGrid (x / y) * y
      = ((2 * n + 1) * b : Int) * pow2 (single.unitExponent k - 1 + e) := by
    rw [← half_mul_eq, ← hb, hhalf]
  -- The dividend and the product of the halfway point and the divisor are multiples of the finer of
  -- their units, and the error of the double leaves less than this unit between them.
  have hsame : ∀ g : Int, g ≤ d → g ≤ single.unitExponent k - 1 + e → x < pow2 (g + 53) →
      double.onGrid (x / y) = x / y := by
    intro g hd he hunit
    obtain ⟨m, hm⟩ := exists_eq_mul_pow2 ha hd
    obtain ⟨m', hm'⟩ := exists_eq_mul_pow2 hproduct he
    rw [eq_div_iff hypos.ne']
    refine eq_of_multiple hm' hm (herror.trans_lt ?_)
    rwa [div_lt_iff₀ (by positivity), ← show pow2 53 = 2 ^ 53 from zpow_natCast 2 53, ← pow2_add]
  have hdividend := abs_lt_of_bits ha habits
  have hdivisor := abs_lt_of_bits hb hbbits
  rw [abs_of_pos hxpos] at hdividend
  rw [abs_of_pos hypos] at hdivisor
  rcases le_total d (single.unitExponent k - 1 + e) with hle | hle
  · exact hsame d le_rfl hle (hdividend.trans_le (pow2_le_pow2.mpr (by omega)))
  · refine hsame _ hle le_rfl ?_
    calc x = x / y * y := (div_mul_cancel₀ x hypos.ne').symm
      _ < pow2 (k + 1) * pow2 (24 + e) :=
        mul_lt_mul'' hless hdivisor (div_pos hxpos hypos).le hypos.le
      _ = pow2 (k + 1 + (24 + e)) := (pow2_add _ _).symm
      _ ≤ pow2 (single.unitExponent k - 1 + e + 53) := by
        refine pow2_le_pow2.mpr ?_
        rw [unitExponent_single]
        omega

/-- The quotient of two singles is rounded once. -/
theorem throughDouble_div (hx : single.Holds x) (hy : single.Holds y) :
    throughDouble (x / y) = single.onGrid (x / y) := by
  have hpositive : ∀ {x : Rat}, single.Holds x → 0 < x →
      throughDouble (x / y) = single.onGrid (x / y) := by
    intro x hx hxpos
    rcases lt_or_gt_of_ne hy.nonzero with hneg | hpos
    · refine throughDouble_of_neg ?_
      rw [← div_neg]
      exact throughDouble_div_of_pos hx hy.neg hxpos (by linarith)
    · exact throughDouble_div_of_pos hx hy hxpos hpos
  rcases lt_or_gt_of_ne hx.nonzero with hneg | hpos
  · refine throughDouble_of_neg ?_
    rw [← neg_div]
    exact hpositive hx.neg (by linarith)
  · exact hpositive hx hpos

/-! ### Operations on singles -/

/-- Computing in double precision and rounding to single precision is rounding once. -/
theorem toSingle_round (h : throughDouble z = single.onGrid z) :
    (double.round z).toSingle = single.round z := by
  by_cases hzero : double.onGrid z = 0
  · have hsingle : single.onGrid z = 0 := by rw [← h, throughDouble, hzero, onGrid_zero]
    rw [round_of_onGrid_zero hzero, round_of_onGrid_zero hsingle]
    rfl
  have hcongr : single.round (double.onGrid z) = single.round z :=
    round_congr h (onGrid_neg_iff hzero)
  rcases lt_or_ge |double.onGrid z| (pow2 double.overflowExponent) with hbelow | hbeyond
  · rw [round_of_onGrid rfl hzero hbelow]
    exact hcongr
  · have hsingle : pow2 single.overflowExponent ≤ |double.onGrid z| :=
      (pow2_le_pow2.mpr (by decide)).trans hbeyond
    rw [round_of_onGrid_beyond hbeyond, ← hcongr, round_of_le (by decide) (by decide) hsingle]
    simp only [onGrid_neg_iff hzero]
    rfl

variable {a b : Floating}

/-- What has an exact value is a zero or finite. -/
theorem cases_of_toRat? (hx : a.toRat? = some x) : (x = 0 ∧ ∃ s, a = .zero s) ∨ a = .finite x := by
  cases a with
  | nan | infinite => cases hx
  | zero s => exact .inl ⟨(Option.some.inj hx).symm, s, rfl⟩
  | finite q => exact .inr (congrArg finite (Option.some.inj hx))

/-- A single that has an exact value is a number that single precision spans. -/
theorem IsSingle.spans (ha : a.IsSingle) (hx : a.toRat? = some x) : single.Spans x := by
  obtain ⟨rfl, -⟩ | rfl := cases_of_toRat? hx
  · exact spans_zero single
  · exact ha.holds_single.spans

private theorem roundsTo_zero (negative : Bool) : single.RoundsTo 0 (.zero negative) := by
  have hnearest := isNearest_onGrid (f := single) (by decide) 0
  rwa [onGrid_zero] at hnearest

private theorem roundsTo_toSingle (h : throughDouble z = single.onGrid z) :
    single.RoundsTo z (double.round z).toSingle := by
  rw [toSingle_round h]
  exact roundsTo_round (by decide) z

theorem roundsTo_add (ha : a.IsSingle) (hb : b.IsSingle) (hx : a.toRat? = some x)
    (hy : b.toRat? = some y) : single.RoundsTo (x + y) (add double a b).toSingle := by
  have hsum := roundsTo_toSingle (throughDouble_add (ha.spans hx) (hb.spans hy))
  obtain ⟨rfl, s, rfl⟩ | rfl := cases_of_toRat? hx <;>
    obtain ⟨rfl, t, rfl⟩ | rfl := cases_of_toRat? hy
  · rw [add_zero]
    exact roundsTo_zero _
  · rw [zero_add] at hsum ⊢
    exact hsum
  · rw [add_zero] at hsum ⊢
    exact hsum
  · exact hsum

theorem IsSingle.neg (hb : b.IsSingle) : b.neg.IsSingle := by
  cases b with
  | nan | infinite | zero => rfl
  | finite q => exact hb.holds_single.neg.round

private theorem toRat?_neg (hy : b.toRat? = some y) : b.neg.toRat? = some (-y) := by
  obtain ⟨rfl, t, rfl⟩ | rfl := cases_of_toRat? hy
  · simp [neg, toRat?]
  · rfl

theorem roundsTo_sub (ha : a.IsSingle) (hb : b.IsSingle) (hx : a.toRat? = some x)
    (hy : b.toRat? = some y) : single.RoundsTo (x - y) (sub double a b).toSingle := by
  rw [sub_eq_add_neg]
  exact roundsTo_add ha hb.neg hx (toRat?_neg hy)

theorem roundsTo_mul (ha : a.IsSingle) (hb : b.IsSingle) (hx : a.toRat? = some x)
    (hy : b.toRat? = some y) : single.RoundsTo (x * y) (mul double a b).toSingle := by
  have hproduct := roundsTo_toSingle (throughDouble_mul (ha.spans hx) (hb.spans hy))
  obtain ⟨rfl, s, rfl⟩ | rfl := cases_of_toRat? hx <;>
    obtain ⟨rfl, t, rfl⟩ | rfl := cases_of_toRat? hy
  · rw [mul_zero]
    exact roundsTo_zero _
  · rw [zero_mul]
    exact roundsTo_zero _
  · rw [mul_zero]
    exact roundsTo_zero _
  · exact hproduct

theorem roundsTo_div (ha : a.IsSingle) (hb : b.IsSingle) (hx : a.toRat? = some x)
    (hy : b.toRat? = some y) (hne : y ≠ 0) : single.RoundsTo (x / y) (div double a b).toSingle := by
  obtain ⟨rfl, t, rfl⟩ | rfl := cases_of_toRat? hy
  · exact absurd rfl hne
  obtain ⟨rfl, s, rfl⟩ | rfl := cases_of_toRat? hx
  · rw [zero_div]
    exact roundsTo_zero _
  · exact roundsTo_toSingle (throughDouble_div ha.holds_single hb.holds_single)

end Floating

end DialogScript
