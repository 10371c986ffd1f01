import DialogScript.Number.Arithmetic
import DialogScript.Proofs.Numbers.Grids

/-!
# What rounding comes to

Rounding to a format is described without its grid and its exponents. A format spans the numbers
that have few enough bits on or above its least unit, whatever their magnitude (`Format.Spans`).
The number nearest to a rational is the one of these at the least distance; where two are equally
near, it is the one that is an even multiple of the distance between them (`Format.IsNearest`).
There is only one such number (`Format.IsNearest.unique`), and rounding gives it
(`Format.isNearest_onGrid`).

A rational rounded to a format is the nearest number if that is below the bound of the format, and
infinite otherwise (`Format.RoundsTo`). This is what `Format.round` gives
(`Format.roundsTo_round`), and nothing else is, up to the sign of a zero.
-/

namespace DialogScript

namespace Floating

/-! ### Nearest integers -/

private theorem abs_nearestEven_sub_le_abs (x : Rat) (n : Int) :
    |(nearestEven x : Rat) - x| ≤ |n - x| := by
  rcases lt_or_ge |x - n| (1 / 2) with hless | hmore
  · rw [nearestEven_eq hless]
  · rw [abs_sub_comm] at hmore
    exact (abs_nearestEven_sub_le x).trans hmore

/-- Another integer is as near as the nearest one only in a tie, which goes to the even one. -/
theorem even_nearestEven_of_tie {x : Rat} {n : Int} (hne : n ≠ nearestEven x)
    (htie : |n - x| = |(nearestEven x : Rat) - x|) :
    2 ∣ nearestEven x ∧ |n - nearestEven x| = 1 := by
  have hnear := abs_nearestEven_sub_le x
  -- Two integers are at least one apart, so both are a half away.
  have hapart : (1 : Rat) ≤ |(n : Rat) - nearestEven x| := by
    exact_mod_cast Int.one_le_abs (sub_ne_zero.mpr hne)
  have htriangle := abs_sub_le (n : Rat) x (nearestEven x)
  rw [abs_sub_comm x] at htriangle
  have hhalf : |(nearestEven x : Rat) - x| = 1 / 2 := by linarith
  have hone : |(n : Rat) - nearestEven x| = 1 := by linarith
  have htie : ∀ m : Int, x = m + 1 / 2 → 2 ∣ nearestEven x := by
    rintro m rfl
    rw [nearestEven_tie]
    split_ifs <;> omega
  refine ⟨?_, by exact_mod_cast hone⟩
  rcases (abs_eq (by norm_num)).mp hhalf with h | h
  · refine htie (nearestEven x - 1) ?_
    push_cast
    linarith
  · exact htie (nearestEven x) (by linarith)

end Floating

namespace Format

open Floating

variable {f : Format} {q r s : Rat}

/-! ### The nearest number -/

/-- The numbers that have few enough bits for a format on or above its least unit, zero included.
They do not end at the bound of the format. -/
def Spans (f : Format) (r : Rat) : Prop :=
  ∃ n e : Int, r = n * pow2 e ∧ |n| < 2 ^ f.precision ∧ f.leastExponent ≤ e

/-- Of the numbers that a format spans, the one nearest to a rational. If another one is equally
near, this one is an even multiple of the distance between the two. -/
structure IsNearest (f : Format) (q r : Rat) : Prop where
  spans : f.Spans r
  nearest : ∀ s, f.Spans s → |r - q| ≤ |s - q|
  even : ∀ s, f.Spans s → s ≠ r → |s - q| = |r - q| → ∃ n : Int, r = 2 * n * |s - r|

/-- Only one number is nearest. -/
theorem IsNearest.unique (hr : f.IsNearest q r) (hs : f.IsNearest q s) : r = s := by
  by_contra hne
  have htie : |s - q| = |r - q| := le_antisymm (hs.nearest r hr.spans) (hr.nearest s hs.spans)
  obtain ⟨m, hm⟩ := hr.even s hs.spans (Ne.symm hne) htie
  obtain ⟨n, hn⟩ := hs.even r hr.spans hne htie.symm
  rw [abs_sub_comm] at hm
  -- Both are even multiples of their distance, so they are not just one distance apart.
  have hdistance : |r - s| ≠ 0 := abs_ne_zero.mpr (sub_ne_zero.mpr hne)
  have hapart : ((2 * (m - n) : Int) : Rat) * |r - s| = r - s := by
    push_cast
    linarith
  rcases abs_choice (r - s) with h | h
  · have hone : ((2 * (m - n) : Int) : Rat) = 1 := by
      refine mul_right_cancel₀ hdistance ?_
      rw [hapart, one_mul, h]
    have hone : 2 * (m - n) = 1 := by exact_mod_cast hone
    omega
  · have hone : ((2 * (m - n) : Int) : Rat) = -1 := by
      refine mul_right_cancel₀ hdistance ?_
      rw [hapart, neg_one_mul, h, neg_neg]
    have hone : 2 * (m - n) = -1 := by exact_mod_cast hone
    omega

theorem Holds.spans (h : f.Holds r) : f.Spans r := h.bits

theorem spans_zero (f : Format) : f.Spans 0 := ⟨0, f.leastExponent, by simp, by simp, le_rfl⟩

theorem Spans.neg (h : f.Spans r) : f.Spans (-r) := by
  obtain ⟨n, e, hr, hn, he⟩ := h
  refine ⟨-n, e, ?_, by rwa [abs_neg], he⟩
  rw [hr]
  push_cast
  ring

theorem spans_intCast {n : Int} (hn : |n| < 2 ^ f.precision) (hleast : f.leastExponent ≤ 0) :
    f.Spans n := ⟨n, 0, by simp [pow2], hn, hleast⟩

/-- A number that a format spans is not changed by rounding to the grid. -/
theorem Spans.onGrid (h : f.Spans r) : f.onGrid r = r := by
  obtain ⟨n, e, hr, hn, he⟩ := h
  by_cases hzero : r = 0
  · rw [hzero, onGrid_zero]
  · exact onGrid_of_multiple hr (gridExponent_le hr hzero hn he)

/-- A number that a format spans is a multiple of the unit above every power of two that it is not
below. -/
theorem Spans.multiple {k : Int} (h : f.Spans r) (hlow : pow2 k ≤ |r|) :
    ∃ m : Int, r = m * pow2 (f.unitExponent k) := by
  obtain ⟨n, e, hr, hn, he⟩ := h
  have hless := pow2_lt_pow2.mp (hlow.trans_lt (abs_lt_of_bits hr hn))
  refine exists_eq_mul_pow2 hr ?_
  unfold unitExponent
  omega

/-- A number that a format spans is on the grid around a rational, or its magnitude is less than a
multiple of the unit that is at most the magnitude of the rational. -/
theorem Spans.onGrid_or_lt (hf : 0 < f.precision) (hs : f.Spans s) (hq : q ≠ 0) :
    (∃ m : Int, s = m * pow2 (f.gridExponent q)) ∨
      ∃ m : Int, |s| < m * pow2 (f.gridExponent q) ∧ m * pow2 (f.gridExponent q) ≤ |q| := by
  obtain ⟨n, e, hs, hn, he⟩ := hs
  rcases le_or_gt (f.gridExponent q) e with hle | hless
  · exact .inl (exists_eq_mul_pow2 hs hle)
  · have hgrid : f.gridExponent q
        = max f.leastExponent (floorLog2 |q| - ((f.precision : Int) - 1)) := by
      rw [gridExponent, magnitude_eq_abs]
    obtain ⟨m, hm⟩ := pow2_multiple (g := f.gridExponent q) (e := floorLog2 |q|) (by omega)
    refine .inr ⟨m, ?_, ?_⟩
    · calc |s| < pow2 (f.precision + e) := abs_lt_of_bits hs hn
        _ ≤ pow2 (floorLog2 |q|) := pow2_le_pow2.mpr (by omega)
        _ = m * pow2 (f.gridExponent q) := hm
    · rw [← hm]
      exact (floorLog2_spec (abs_pos.mpr hq)).1

/-- No multiple of the unit is nearer than the one that rounding gives. -/
theorem abs_onGrid_sub_le_abs (f : Format) (q : Rat) (m : Int) :
    |f.onGrid q - q| ≤ |m * pow2 (f.gridExponent q) - q| := by
  rw [onGrid, abs_mul_unit_sub, abs_mul_unit_sub]
  exact mul_le_mul_of_nonneg_right (abs_nearestEven_sub_le_abs _ m) (pow2_pos _).le

/-- What a format spans beside the grid is farther away than what rounding gives. -/
theorem Spans.onGrid_or_farther (hf : 0 < f.precision) (hs : f.Spans s) (q : Rat) :
    (∃ m : Int, s = m * pow2 (f.gridExponent q)) ∨ |f.onGrid q - q| < |s - q| := by
  by_cases hq : q = 0
  · rcases eq_or_ne s 0 with rfl | hne
    · exact .inl ⟨0, by simp⟩
    · rw [hq, onGrid_zero]
      simpa using .inr hne
  rcases hs.onGrid_or_lt hf hq with hgrid | ⟨m, hless, hle⟩
  · exact .inl hgrid
  · -- The multiple of the unit that has the sign of the rational is nearer.
    have hdistance := abs_sub_abs_le_abs_sub q s
    rw [abs_sub_comm] at hdistance
    refine .inr ?_
    rcases abs_cases q with ⟨habs, -⟩ | ⟨habs, -⟩
    · refine (abs_onGrid_sub_le_abs f q m).trans_lt ?_
      rw [abs_of_nonpos (by linarith)]
      linarith
    · refine (abs_onGrid_sub_le_abs f q (-m)).trans_lt ?_
      push_cast
      rw [abs_of_nonneg (by linarith)]
      linarith

/-- Rounding to the grid gives the nearest number. -/
theorem isNearest_onGrid (hf : 0 < f.precision) (q : Rat) : f.IsNearest q (f.onGrid q) := by
  have hunit := pow2_pos (f.gridExponent q)
  refine ⟨bits_onGrid hf q, fun s hs => ?_, fun s hs hne htie => ?_⟩
  · rcases hs.onGrid_or_farther hf q with ⟨m, rfl⟩ | hless
    · exact abs_onGrid_sub_le_abs f q m
    · exact hless.le
  · obtain ⟨m, rfl⟩ : ∃ m : Int, s = m * pow2 (f.gridExponent q) := by
      rcases hs.onGrid_or_farther hf q with hgrid | hless
      · exact hgrid
      · exact absurd htie hless.ne'
    have hm : m ≠ nearestEven (q / pow2 (f.gridExponent q)) := by
      rintro rfl
      exact hne rfl
    rw [onGrid, abs_mul_unit_sub, abs_mul_unit_sub] at htie
    obtain ⟨⟨n, hn⟩, hone⟩ := even_nearestEven_of_tie hm (mul_right_cancel₀ hunit.ne' htie)
    refine ⟨n, ?_⟩
    have hdistance : |m * pow2 (f.gridExponent q) - f.onGrid q| = pow2 (f.gridExponent q) := by
      rw [onGrid, ← sub_mul, abs_mul, abs_of_pos hunit]
      rw [show |(m : Rat) - nearestEven (q / pow2 (f.gridExponent q))| = 1 by exact_mod_cast hone,
        one_mul]
    rw [hdistance, onGrid, hn]
    push_cast
    ring

theorem IsNearest.onGrid_eq (hf : 0 < f.precision) (h : f.IsNearest q r) : f.onGrid q = r :=
  (isNearest_onGrid hf q).unique h

/-! ### The rounded number -/

/-- What a rational is rounded to: the nearest number, or the infinity of its sign if that lies
beyond the bound of the format. The sign of a zero is left open. -/
def RoundsTo (f : Format) (q : Rat) : Floating → Prop
  | .nan => False
  | .infinite negative =>
    ∃ r, f.IsNearest q r ∧ pow2 f.overflowExponent ≤ |r| ∧ negative = decide (r < 0)
  | .zero _ => f.IsNearest q 0
  | .finite r => f.IsNearest q r ∧ r ≠ 0 ∧ |r| < pow2 f.overflowExponent

theorem onGrid_neg_iff (hne : f.onGrid q ≠ 0) : f.onGrid q < 0 ↔ q < 0 := by
  constructor
  · intro h
    by_contra hle
    exact absurd (onGrid_nonneg f (not_lt.mp hle)) (not_le.mpr h)
  · intro h
    have hneg := onGrid_nonneg f (neg_nonneg.mpr h.le)
    rw [onGrid_neg] at hneg
    exact lt_of_le_of_ne (by linarith) hne

/-- The rounded number depends on the multiple of the unit and on the sign only. -/
theorem round_congr (hgrid : f.onGrid q = f.onGrid r) (hsign : q < 0 ↔ r < 0) :
    f.round q = f.round r := by
  simp only [round, hgrid, hsign]

theorem toRat?_round (hbelow : |f.onGrid q| < pow2 f.overflowExponent) :
    (f.round q).toRat? = some (f.onGrid q) := by
  by_cases hzero : f.onGrid q = 0
  · rw [round_of_onGrid_zero hzero, hzero]
    rfl
  · rw [round_of_onGrid rfl hzero hbelow]
    rfl

theorem roundsTo_round (hf : 0 < f.precision) (q : Rat) : f.RoundsTo q (f.round q) := by
  have hnearest := isNearest_onGrid hf q
  by_cases hzero : f.onGrid q = 0
  · rw [round_of_onGrid_zero hzero]
    rwa [hzero] at hnearest
  rcases lt_or_ge |f.onGrid q| (pow2 f.overflowExponent) with hbelow | hbeyond
  · rw [round_of_onGrid rfl hzero hbelow]
    exact ⟨hnearest, hzero, hbelow⟩
  · rw [round_of_onGrid_beyond hbeyond]
    exact ⟨_, hnearest, hbeyond, by simp only [onGrid_neg_iff hzero]⟩

/-- What a rational is rounded to is what `round` gives, up to the sign of a zero. -/
theorem RoundsTo.eq_round (hf : 0 < f.precision) {v : Floating} (h : f.RoundsTo q v) :
    v = f.round q ∨ (v.isZero = true ∧ (f.round q).isZero = true) := by
  cases v with
  | nan => exact h.elim
  | infinite negative =>
    obtain ⟨r, hr, hbeyond, rfl⟩ := h
    obtain rfl := hr.onGrid_eq hf
    have hne : f.onGrid q ≠ 0 := abs_pos.mp ((pow2_pos _).trans_le hbeyond)
    rw [round_of_onGrid_beyond hbeyond]
    simp only [onGrid_neg_iff hne, true_or]
  | zero negative =>
    rw [round_of_onGrid_zero (h.onGrid_eq hf)]
    exact .inr ⟨rfl, rfl⟩
  | finite r => exact .inl (round_of_onGrid (h.1.onGrid_eq hf) h.2.1 h.2.2).symm

/-- A rational is rounded to one number only, if zeros of either sign count as one. -/
theorem RoundsTo.unique (hf : 0 < f.precision) {v w : Floating} (hv : f.RoundsTo q v)
    (hw : f.RoundsTo q w) : w = v ∨ (w.isZero = true ∧ v.isZero = true) := by
  rcases hv.eq_round hf with rfl | ⟨hvzero, hzero⟩
  · exact hw.eq_round hf
  · rcases hw.eq_round hf with rfl | ⟨hwzero, -⟩
    · exact .inr ⟨hzero, hvzero⟩
    · exact .inr ⟨hwzero, hvzero⟩

/-! ### The order of rounded numbers -/

variable {p : Rat} {v : Floating}

/-- A rounded number is the nearest number, or an infinity on whose side this lies beyond the
bound. -/
theorem RoundsTo.eq_or_beyond (hf : 0 < f.precision) (h : f.RoundsTo q v) :
    (∃ negative, v = .zero negative ∧ f.onGrid q = 0) ∨ v = .finite (f.onGrid q) ∨
      (v = .infinite false ∧ pow2 f.overflowExponent ≤ f.onGrid q) ∨
      (v = .infinite true ∧ f.onGrid q ≤ -pow2 f.overflowExponent) := by
  cases v with
  | nan => exact h.elim
  | zero negative => exact .inl ⟨negative, rfl, h.onGrid_eq hf⟩
  | finite r => exact .inr (.inl (congrArg Floating.finite (h.1.onGrid_eq hf).symm))
  | infinite negative =>
    obtain ⟨r, hr, hbeyond, rfl⟩ := h
    rw [hr.onGrid_eq hf]
    rcases abs_cases r with ⟨habs, hsign⟩ | ⟨habs, hsign⟩
    · exact .inr (.inr (.inl ⟨by simp [hsign], habs ▸ hbeyond⟩))
    · exact .inr (.inr (.inr ⟨by simp [hsign], by linarith⟩))

/-- A number below the bound of the format is less than a rounded one if it is less than the nearest
number, be this beyond the bound or not. -/
theorem RoundsTo.finite_lt (hf : 0 < f.precision) (h : f.RoundsTo q v)
    (hp : |p| < pow2 f.overflowExponent) : (Floating.finite p).lt v = decide (p < f.onGrid q) := by
  obtain ⟨hlow, hhigh⟩ := abs_lt.mp hp
  obtain ⟨-, rfl, hzero⟩ | rfl | ⟨rfl, hbeyond⟩ | ⟨rfl, hbeyond⟩ := h.eq_or_beyond hf
  · rw [hzero]
    rfl
  · rfl
  · simp [lt, hhigh.trans_le hbeyond]
  · simp [lt, hbeyond.trans hlow.le]

theorem RoundsTo.lt_finite (hf : 0 < f.precision) (h : f.RoundsTo q v)
    (hp : |p| < pow2 f.overflowExponent) : v.lt (.finite p) = decide (f.onGrid q < p) := by
  obtain ⟨hlow, hhigh⟩ := abs_lt.mp hp
  obtain ⟨-, rfl, hzero⟩ | rfl | ⟨rfl, hbeyond⟩ | ⟨rfl, hbeyond⟩ := h.eq_or_beyond hf
  · rw [hzero]
    rfl
  · rfl
  · simp [lt, hhigh.le.trans hbeyond]
  · simp [lt, hbeyond.trans_lt hlow]

private theorem abs_finite (r : Rat) : (Floating.finite r).abs = .finite |r| := by
  rcases abs_cases r with ⟨habs, hsign⟩ | ⟨habs, hsign⟩
  · simp [Floating.abs, isNegative, habs, not_lt.mpr hsign]
  · simp [Floating.abs, isNegative, habs, hsign, neg]

theorem RoundsTo.abs_lt_finite (hf : 0 < f.precision) (h : f.RoundsTo q v)
    (hp : |p| < pow2 f.overflowExponent) : v.abs.lt (.finite p) = decide (|f.onGrid q| < p) := by
  have hhigh := (abs_lt.mp hp).2
  obtain ⟨negative, rfl, hzero⟩ | rfl | ⟨rfl, hbeyond⟩ | ⟨rfl, hbeyond⟩ := h.eq_or_beyond hf
  · rw [hzero, abs_zero]
    cases negative <;> rfl
  · rw [abs_finite]
    rfl
  · have hbeyond := hbeyond.trans (le_abs_self _)
    simp [Floating.abs, isNegative, lt, hhigh.le.trans hbeyond]
  · have hbeyond := (le_neg.mpr hbeyond).trans (neg_le_abs _)
    simp [Floating.abs, isNegative, neg, lt, hhigh.le.trans hbeyond]

/-! ### Multiples of the least unit -/

/-- A number that a format spans is a multiple of its least unit. -/
theorem Spans.least_multiple (h : f.Spans r) : ∃ n : Int, r = n * pow2 f.leastExponent := by
  obtain ⟨n, e, hr, -, he⟩ := h
  exact exists_eq_mul_pow2 hr he

/-- The rounding of a multiple of the least unit does not show where it is compared with this
unit. -/
theorem onGrid_least (hf : 0 < f.precision) {n : Int} (hq : q = n * pow2 f.leastExponent) :
    (pow2 f.leastExponent < f.onGrid q ↔ pow2 f.leastExponent < q) ∧
      (f.onGrid q < pow2 f.leastExponent ↔ q ≤ 0) := by
  have hunit := pow2_pos f.leastExponent
  have hone := onGrid_pow2 hf (le_refl f.leastExponent)
  have htwo := onGrid_pow2 (k := f.leastExponent + 1) hf (by omega)
  rw [pow2_add_one] at htwo
  obtain hn | rfl | hn : n ≤ 0 ∨ n = 1 ∨ 2 ≤ n := by omega
  · have hq : q ≤ 0 := by
      rw [hq]
      exact mul_nonpos_of_nonpos_of_nonneg (by exact_mod_cast hn) hunit.le
    have hgrid := onGrid_monotone hf hq
    rw [onGrid_zero] at hgrid
    constructor <;> constructor <;> intro <;> linarith
  · obtain rfl : q = pow2 f.leastExponent := by simpa using hq
    rw [hone]
    exact ⟨Iff.rfl, fun h => absurd h (lt_irrefl _), fun h => by linarith⟩
  · have hq : 2 * pow2 f.leastExponent ≤ q := by
      rw [hq]
      exact mul_le_mul_of_nonneg_right (by exact_mod_cast hn) hunit.le
    have hgrid := onGrid_monotone hf hq
    rw [htwo] at hgrid
    constructor <;> constructor <;> intro <;> linarith

end Format

end DialogScript
