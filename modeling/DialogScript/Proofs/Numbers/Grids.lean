import DialogScript.Proofs.Numbers.Rounding

/-!
# Rounding keeps order and symmetry

Between two powers of two next to each other a format holds the multiples of one unit, and rounding
is rounding to the nearest of these (`Format.onGrid_of_between`). So rounding keeps the order of
numbers (`Format.onGrid_mono`), and what lies as far below a number of the format as something lies
above it is rounded as far below it (`Format.onGrid_reflect`), unless a power of two stands between
them.

A number that is nearer to one of the format than half the distance of its neighbours is rounded to
it (`Format.onGrid_of_near`).
-/

namespace DialogScript

namespace Floating

/-! ### Nearest integers -/

private theorem nearestEven_intCast (n : Int) : nearestEven (n : Rat) = n :=
  nearestEven_eq (by simp)

private theorem nearestEven_mono {x y : Rat} (h : x ≤ y) : nearestEven x ≤ nearestEven y := by
  rcases le_or_gt x (nearestEven y) with hle | hless
  · exact nearestEven_le hle
  · -- Both are above the integer, and the greater one by a half at most.
    have hy := (abs_le.mp (abs_nearestEven_sub_le y)).1
    rcases h.lt_or_eq with hlt | rfl
    · exact (nearestEven_eq (abs_lt.mpr ⟨by linarith, by linarith⟩)).le
    · exact le_rfl

private theorem nearestEven_add_two_mul (x : Rat) (n : Int) :
    nearestEven (x + 2 * n) = nearestEven x + 2 * n := by
  have hfloor : (x + 2 * n).floor = x.floor + 2 * n := by
    have := Int.floor_add_intCast x (2 * n)
    push_cast at this
    exact this
  have hrest : x + 2 * n - ((x.floor + 2 * n : Int) : Rat) = x - x.floor := by
    push_cast
    ring
  simp only [nearestEven, hfloor, hrest]
  split_ifs <;> omega

/-- Numbers on both sides of an integer, equally far from it, have nearest integers that are equally
far from it. -/
theorem nearestEven_reflect (x : Rat) (n : Int) :
    nearestEven (2 * n - x) = 2 * n - nearestEven x := by
  rw [sub_eq_neg_add, nearestEven_add_two_mul, nearestEven_neg]
  ring

end Floating

namespace Format

open Floating

variable {f : Format} {x y q : Rat} {k : Int}

/-! ### The grid between two powers of two -/

/-- The exponent of the unit between a power of two and the next one. -/
def unitExponent (f : Format) (k : Int) : Int := max f.leastExponent (k - ((f.precision : Int) - 1))

theorem gridExponent_of_between (hlow : pow2 k ≤ x) (hhigh : x < pow2 (k + 1)) :
    f.gridExponent x = f.unitExponent k := by
  have hx : 0 < x := (pow2_pos k).trans_le hlow
  have hle := le_floorLog2 hx hlow
  have hlt := floorLog2_lt hx hhigh
  have hlog : floorLog2 x = k := by omega
  rw [gridExponent, magnitude_eq_abs, abs_of_pos hx, hlog, unitExponent]

/-- Below a power of two the unit is no greater than right below it. -/
theorem gridExponent_le_of_lt (hx : 0 < x) (hless : x < pow2 (k + 1)) :
    f.gridExponent x ≤ f.unitExponent k := by
  have hlog := floorLog2_lt hx hless
  rw [gridExponent, magnitude_eq_abs, abs_of_pos hx, unitExponent]
  omega

theorem pow2_multiple {g e : Int} (h : g ≤ e) : ∃ m : Int, pow2 e = m * pow2 g :=
  exists_eq_mul_pow2 (n := 1) (by simp) h

theorem unitExponent_le (hf : 0 < f.precision) (hleast : f.leastExponent ≤ k) :
    f.unitExponent k ≤ k := by
  unfold unitExponent
  omega

theorem onGrid_of_multiple {m g : Int} (hx : x = m * pow2 g) (hg : f.gridExponent x ≤ g) :
    f.onGrid x = x := by
  obtain ⟨n, hn⟩ := exists_eq_mul_pow2 hx hg
  exact onGrid_eq hn (by simpa using half_pos (pow2_pos _))

theorem onGrid_zero (f : Format) : f.onGrid 0 = 0 := onGrid_of_multiple (m := 0) (by simp) le_rfl

theorem onGrid_pow2 (hf : 0 < f.precision) (hleast : f.leastExponent ≤ k) :
    f.onGrid (pow2 k) = pow2 k := by
  refine onGrid_of_multiple (m := 1) (g := k) (by simp) ?_
  rw [gridExponent_of_between le_rfl (pow2_lt_pow2.mpr (by omega))]
  exact unitExponent_le hf hleast

/-- The powers of two are not changed, whatever their sign. -/
theorem onGrid_of_abs_eq_pow2 (hf : 0 < f.precision) (hleast : f.leastExponent ≤ k)
    (h : |x| = pow2 k) : f.onGrid x = x := by
  rcases eq_or_eq_neg_of_abs_eq h with rfl | rfl
  · exact onGrid_pow2 hf hleast
  · rw [onGrid_neg, onGrid_pow2 hf hleast]

/-- Up to the next power of two, which is a multiple of the unit as well, rounding is rounding to a
multiple of one unit. -/
theorem onGrid_of_between (hf : 0 < f.precision) (hleast : f.leastExponent ≤ k)
    (hlow : pow2 k ≤ x) (hhigh : x ≤ pow2 (k + 1)) :
    f.onGrid x = nearestEven (x / pow2 (f.unitExponent k)) * pow2 (f.unitExponent k) := by
  rcases hhigh.lt_or_eq with hless | rfl
  · simp only [onGrid, gridExponent_of_between hlow hless]
  · have hle := unitExponent_le hf hleast
    obtain ⟨m, hm⟩ := pow2_multiple (g := f.unitExponent k) (e := k + 1) (by omega)
    have hunit := (pow2_pos (f.unitExponent k)).ne'
    rw [onGrid_pow2 hf (by omega), hm, mul_div_cancel_right₀ _ hunit, nearestEven_intCast]

/-- Below the least power of two the unit is the least one, too. -/
theorem onGrid_of_le (hf : 0 < f.precision) (hleast : f.leastExponent ≤ k) (hx : 0 ≤ x)
    (hlow : pow2 k ≤ x ∨ k = f.leastExponent) (hhigh : x ≤ pow2 (k + 1)) :
    f.onGrid x = nearestEven (x / pow2 (f.unitExponent k)) * pow2 (f.unitExponent k) := by
  by_cases hbetween : pow2 k ≤ x
  · exact onGrid_of_between hf hleast hbetween hhigh
  obtain rfl := hlow.resolve_left hbetween
  rcases hx.eq_or_lt with rfl | hpos
  · have hzero : nearestEven 0 = 0 := by exact_mod_cast nearestEven_intCast 0
    rw [onGrid_zero, zero_div, hzero, Int.cast_zero, zero_mul]
  · have hle := gridExponent_le_of_lt (f := f) hpos
      ((not_le.mp hbetween).trans (pow2_lt_pow2.mpr (lt_add_one _)))
    have hgrid : f.gridExponent x = f.unitExponent f.leastExponent := by
      refine le_antisymm hle ?_
      unfold gridExponent unitExponent
      omega
    simp only [onGrid, hgrid]

theorem onGrid_of_unit {m g : Int} (hf : 0 < f.precision) (hleast : f.leastExponent ≤ k)
    (hx : pow2 k ≤ x ∧ x ≤ pow2 (k + 1)) (hm : x = m * pow2 g) (hg : f.unitExponent k ≤ g) :
    f.onGrid x = x := by
  obtain ⟨n, hn⟩ := exists_eq_mul_pow2 hm hg
  have hunit := (pow2_pos (f.unitExponent k)).ne'
  rw [onGrid_of_between hf hleast hx.1 hx.2, hn, mul_div_cancel_right₀ _ hunit, nearestEven_intCast]

/-- Rounding keeps the order of numbers. -/
theorem onGrid_mono (hf : 0 < f.precision) (hx : 0 ≤ x) (h : x ≤ y) : f.onGrid x ≤ f.onGrid y := by
  rcases hx.eq_or_lt with rfl | hx
  · rw [onGrid_zero]
    exact onGrid_nonneg f h
  have hy : 0 < y := hx.trans_le h
  have hlog : floorLog2 x ≤ floorLog2 y := le_floorLog2 hy ((floorLog2_spec hx).1.trans h)
  have hgridx : f.gridExponent x = f.unitExponent (floorLog2 x) :=
    gridExponent_of_between (floorLog2_spec hx).1 (floorLog2_spec hx).2
  have hgridy : f.gridExponent y = f.unitExponent (floorLog2 y) :=
    gridExponent_of_between (floorLog2_spec hy).1 (floorLog2_spec hy).2
  by_cases hsame : f.gridExponent x = f.gridExponent y
  · have hunit := pow2_pos (f.gridExponent y)
    simp only [onGrid, hsame]
    refine mul_le_mul_of_nonneg_right ?_ hunit.le
    exact_mod_cast nearestEven_mono (div_le_div_of_nonneg_right h hunit.le)
  · -- The power of two at or below the greater number separates them.
    have hleast : f.leastExponent ≤ floorLog2 y ∧ floorLog2 x < floorLog2 y := by
      rw [hgridx, hgridy] at hsame
      unfold unitExponent at hsame
      omega
    have hbetween : x ≤ pow2 (floorLog2 y) :=
      (floorLog2_spec hx).2.le.trans (pow2_le_pow2.mpr (by omega))
    obtain ⟨m, hm⟩ := pow2_multiple (g := f.gridExponent x) (e := floorLog2 y)
      (by rw [hgridx]; unfold unitExponent; omega)
    have hunit := pow2_pos (f.gridExponent x)
    have hbelow : f.onGrid x ≤ pow2 (floorLog2 y) := by
      rw [hm]
      refine mul_le_mul_of_nonneg_right ?_ hunit.le
      rw [hm] at hbetween
      exact_mod_cast nearestEven_le ((div_le_iff₀ hunit).mpr hbetween)
    have habove := pow2_le_abs_onGrid (q := y) hf hleast.1
      (by rw [abs_of_pos hy]; exact (floorLog2_spec hy).1)
    rw [abs_of_nonneg (onGrid_nonneg f hy.le)] at habove
    exact hbelow.trans habove

/-- Rounding keeps the order of numbers, whatever their signs. -/
theorem onGrid_monotone (hf : 0 < f.precision) : Monotone f.onGrid := by
  intro x y h
  rcases le_total 0 x with hx | hx
  · exact onGrid_mono hf hx h
  have hneg : f.onGrid x ≤ 0 := by
    have := onGrid_nonneg f (neg_nonneg.mpr hx)
    rw [onGrid_neg] at this
    linarith
  rcases le_total 0 y with hy | hy
  · exact hneg.trans (onGrid_nonneg f hy)
  · have := onGrid_mono hf (neg_nonneg.mpr hy) (neg_le_neg h)
    rw [onGrid_neg, onGrid_neg] at this
    linarith

/-- Rounding does not leave the powers of two around a number. -/
theorem onGrid_between (hf : 0 < f.precision) (hleast : f.leastExponent ≤ k)
    (hx : pow2 k ≤ x ∧ x ≤ pow2 (k + 1)) : pow2 k ≤ f.onGrid x ∧ f.onGrid x ≤ pow2 (k + 1) := by
  have hpos := pow2_pos k
  have hlow := onGrid_mono hf hpos.le hx.1
  have hhigh := onGrid_mono hf (hpos.le.trans hx.1) hx.2
  rw [onGrid_pow2 hf hleast] at hlow
  rw [onGrid_pow2 hf (by omega)] at hhigh
  exact ⟨hlow, hhigh⟩

/-! ### Rounding errors -/

/-- Distances are measured in units. -/
theorem abs_mul_unit_sub (n e : Int) (x : Rat) :
    |n * pow2 e - x| = |n - x / pow2 e| * pow2 e := by
  have hunit := pow2_pos e
  calc |n * pow2 e - x| = |(n - x / pow2 e) * pow2 e| := by
        rw [sub_mul, div_mul_cancel₀ x hunit.ne']
    _ = |n - x / pow2 e| * pow2 e := by rw [abs_mul, abs_of_pos hunit]

/-- Rounding is off by at most half a unit. -/
theorem abs_onGrid_sub_le (f : Format) (x : Rat) :
    |f.onGrid x - x| ≤ pow2 (f.gridExponent x) / 2 := by
  rw [onGrid, abs_mul_unit_sub]
  have hhalf := mul_le_mul_of_nonneg_right
    (abs_nearestEven_sub_le (x / pow2 (f.gridExponent x))) (pow2_pos (f.gridExponent x)).le
  linarith

/-- Up to a power of two rounding is off by at most half the unit right below it. -/
theorem abs_onGrid_sub_le_unit (hf : 0 < f.precision) (hleast : f.leastExponent ≤ k + 1)
    (h : |x| ≤ pow2 (k + 1)) : |f.onGrid x - x| ≤ pow2 (f.unitExponent k) / 2 := by
  have hexact : f.onGrid x = x → |f.onGrid x - x| ≤ pow2 (f.unitExponent k) / 2 := by
    intro heq
    rw [heq, sub_self, abs_zero]
    exact (half_pos (pow2_pos _)).le
  rcases h.lt_or_eq with hless | heq
  · rcases eq_or_ne x 0 with rfl | hne
    · exact hexact (onGrid_zero f)
    · have hunit := gridExponent_le_of_lt (f := f) (abs_pos.mpr hne) hless
      rw [gridExponent_abs] at hunit
      exact (abs_onGrid_sub_le f x).trans
        (div_le_div_of_nonneg_right (pow2_le_pow2.mpr hunit) (by norm_num))
  · exact hexact (onGrid_of_abs_eq_pow2 hf hleast heq)

/-- Above the numbers that have fewer digits, rounding is off by a small part of a number. -/
theorem abs_onGrid_sub_le_div (hx : pow2 (f.leastExponent + f.precision) ≤ x) :
    |f.onGrid x - x| ≤ x / 2 ^ f.precision := by
  have hpos : 0 < x := (pow2_pos _).trans_le hx
  have hlog := le_floorLog2 hpos hx
  have hgrid : f.gridExponent x - 1 = floorLog2 x - f.precision := by
    rw [gridExponent, magnitude_eq_abs, abs_of_pos hpos]
    omega
  calc |f.onGrid x - x| ≤ pow2 (f.gridExponent x) / 2 := abs_onGrid_sub_le f x
    _ = pow2 (floorLog2 x) / 2 ^ f.precision := by rw [← pow2_sub_one, hgrid, pow2_sub_natCast]
    _ ≤ x / 2 ^ f.precision := div_le_div_of_nonneg_right (floorLog2_spec hpos).1 (by positivity)

/-! ### Symmetry -/

/-- Numbers on both sides of a multiple of the unit, equally far from it, are rounded to numbers
that are equally far from it. -/
theorem onGrid_reflect {m : Int} (hf : 0 < f.precision) (hleast : f.leastExponent ≤ k)
    (hq : q = m * pow2 (f.unitExponent k)) (hx : pow2 k ≤ x ∧ x ≤ pow2 (k + 1))
    (hx' : pow2 k ≤ 2 * q - x ∧ 2 * q - x ≤ pow2 (k + 1)) :
    f.onGrid (2 * q - x) = 2 * q - f.onGrid x := by
  have hunit := (pow2_pos (f.unitExponent k)).ne'
  rw [onGrid_of_between hf hleast hx.1 hx.2, onGrid_of_between hf hleast hx'.1 hx'.2, hq, sub_div,
    ← mul_assoc, mul_div_cancel_right₀ _ hunit, nearestEven_reflect]
  push_cast
  ring

/-! ### Neighbours on a grid -/

/-- Different multiples of a unit are at least one unit apart. -/
theorem add_unit_le {m n g : Int} (hx : x = m * pow2 g) (hy : y = n * pow2 g) (h : x < y) :
    x + pow2 g ≤ y := by
  have hunit := pow2_pos g
  rw [hx, hy] at h ⊢
  have hint : m + 1 ≤ n := by exact_mod_cast lt_of_mul_lt_mul_right h hunit.le
  have hcast : (m : Rat) + 1 ≤ n := by exact_mod_cast hint
  nlinarith

/-- Multiples of a unit that are less than a unit apart are the same. -/
theorem eq_of_multiple {m n g : Int} (hx : x = m * pow2 g) (hy : y = n * pow2 g)
    (h : |x - y| < pow2 g) : x = y := by
  obtain ⟨hleft, hright⟩ := abs_lt.mp h
  rcases lt_trichotomy x y with hless | heq | hmore
  · have := add_unit_le hx hy hless
    linarith
  · exact heq
  · have := add_unit_le hy hx hmore
    linarith

/-- A number that a format holds is a multiple of the unit between the powers of two around it, and
is no less than the least unit. -/
theorem Holds.multiple (h : f.Holds q) (hlow : pow2 k ≤ q) (hhigh : q < pow2 (k + 1)) :
    (∃ m : Int, q = m * pow2 (f.unitExponent k)) ∧ f.leastExponent ≤ k := by
  obtain ⟨hne, ⟨n, e, hn, hbits, hleast⟩, -⟩ := h
  have hgrid := gridExponent_le hn hne hbits hleast
  rw [gridExponent_of_between hlow hhigh] at hgrid
  refine ⟨exists_eq_mul_pow2 hn hgrid, ?_⟩
  have hpos : 0 < q := (pow2_pos k).trans_le hlow
  have hone : 1 ≤ n := by
    by_contra hless
    have hneg : (n : Rat) ≤ 0 := by exact_mod_cast (by omega : n ≤ 0)
    nlinarith [pow2_pos e]
  have hcast : (1 : Rat) ≤ n := by exact_mod_cast hone
  have hunit : pow2 e < pow2 (k + 1) := by nlinarith [pow2_pos e]
  have := pow2_lt_pow2.mp hunit
  omega

theorem Holds.least_le (h : f.Holds q) (hq : 0 < q) : pow2 f.leastExponent ≤ q :=
  (pow2_le_pow2.mpr (h.multiple (floorLog2_spec hq).1 (floorLog2_spec hq).2).2).trans
    (floorLog2_spec hq).1

private theorem pow2_div_le_half_unit (f : Format) (k : Int) :
    pow2 k / 2 ^ f.precision ≤ pow2 (f.unitExponent k) / 2 := by
  rw [← pow2_sub_natCast, ← pow2_sub_one]
  refine pow2_le_pow2.mpr ?_
  unfold unitExponent
  omega

/-- What is so near to a number of a format that it cannot be as near to another one is rounded to
it. The bound is the worst case: the number is a power of two, and those below it lie closer. -/
theorem onGrid_of_near (hf : 0 < f.precision) (hholds : f.Holds q) (hq : 0 < q)
    (hnear : |x - q| < q / 2 ^ (f.precision + 1)) : f.onGrid x = q := by
  obtain ⟨k, hlow, hhigh⟩ : ∃ k, pow2 k ≤ q ∧ q < pow2 (k + 1) := ⟨_, floorLog2_spec hq⟩
  obtain ⟨⟨m, hm⟩, hleast⟩ := hholds.multiple hlow hhigh
  have hdouble := pow2_add_one k
  have hsplit : q / 2 ^ (f.precision + 1) = q / 2 / 2 ^ f.precision := by
    rw [pow_succ, mul_comm, div_div]
  rw [hsplit] at hnear
  have hclose : |x - q| < pow2 (f.unitExponent k) / 2 := by
    refine (hnear.trans (div_lt_div_of_pos_right ?_ (by positivity))).trans_le
      (pow2_div_le_half_unit f k)
    linarith
  obtain ⟨hleft, hright⟩ := abs_lt.mp hclose
  have hpos := pow2_pos (f.unitExponent k)
  by_cases hsame : pow2 k ≤ x
  · -- The number is between the same powers of two, so it is on the same grid.
    have hnext : q + pow2 (f.unitExponent k) ≤ pow2 (k + 1) := by
      obtain ⟨n, hn⟩ := pow2_multiple (g := f.unitExponent k) (e := k + 1)
        (by have := unitExponent_le hf hleast; omega)
      exact add_unit_le hm hn hhigh
    have hgrid := gridExponent_of_between (f := f) hsame (by linarith)
    exact onGrid_eq (n := m) (by rw [hgrid]; exact hm) (by rwa [hgrid])
  · -- The number of the format is a power of two, and the other one lies below it.
    have hpower : q = pow2 k := by
      by_contra hne
      obtain ⟨n, hn⟩ := pow2_multiple (unitExponent_le hf hleast)
      have habove := add_unit_le hn hm (lt_of_le_of_ne hlow (Ne.symm hne))
      linarith
    have hhalf := pow2_sub_one k
    rw [hpower, ← hhalf] at hnear
    have hless : pow2 (k - 1) / 2 ^ f.precision ≤ pow2 (k - 1) :=
      div_le_self (pow2_pos _).le (one_le_pow₀ (by norm_num))
    have hgrid := gridExponent_of_between (f := f) (x := x) (k := k - 1)
      (by linarith [(abs_lt.mp hnear).1]) (by rw [sub_add_cancel]; exact not_le.mp hsame)
    obtain ⟨n, hn⟩ := pow2_multiple (g := f.unitExponent (k - 1)) (e := k)
      (by unfold unitExponent; omega)
    rw [hpower]
    refine onGrid_eq (n := n) (by rw [hgrid]; exact hn) ?_
    rw [hgrid]
    exact hnear.trans_le (pow2_div_le_half_unit f _)

end Format

end DialogScript
