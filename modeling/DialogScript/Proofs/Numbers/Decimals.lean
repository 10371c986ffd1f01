import DialogScript.Number.Decimal
import DialogScript.Proofs.Numbers.Grids
import Mathlib.Tactic.NormNum

/-!
# Decimals

Reading a decimal into a format is rounding its value (`Decimal.toFloating_eq_round`), so it does
not matter how the decimal is written. The nearest decimal with a given number of significant digits
is within half a unit of the last digit (`Decimal.nearest_near`); with seventeen digits that is so
near to a double that it is rounded to it. Hence the shortest decimal of a double reads back as the
double, whether the search for it ends early or not (`Decimal.toFloating_shortest`).
-/

namespace DialogScript

open Floating

namespace Decimal

/-! ### Powers of ten -/

theorem pow10_pos (e : Int) : 0 < pow10 e := zpow_pos (by norm_num) e

theorem pow10_add (a b : Int) : pow10 (a + b) = pow10 a * pow10 b := zpow_add₀ (by norm_num) a b

theorem pow10_le_pow10 {a b : Int} : pow10 a ≤ pow10 b ↔ a ≤ b :=
  zpow_le_zpow_iff_right₀ (by norm_num)

theorem pow10_natCast (n : Nat) : pow10 n = ((10 ^ n : Nat) : Rat) := by
  simp [pow10]

private theorem pow2_le_pow10 {e : Int} (h : 0 ≤ e) : pow2 e ≤ pow10 e :=
  zpow_le_zpow_left₀ h (by norm_num) (by norm_num)

private theorem pow10_le_pow2 {e : Int} (h : e ≤ 0) : pow10 e ≤ pow2 e := by
  have hflip : pow2 (-e) ≤ pow10 (-e) := pow2_le_pow10 (by omega)
  unfold pow2 pow10 at hflip ⊢
  rw [zpow_neg, zpow_neg] at hflip
  exact (inv_le_inv₀ (by positivity) (by positivity)).mp hflip

/-! ### Digits -/

private theorem digitCount_pos (n : Nat) : 0 < digitCount n := Nat.length_toDigits_pos

private theorem digitCount_between {n : Nat} (hn : n ≠ 0) :
    pow10 (digitCount n - 1) ≤ (n : Rat) ∧ (n : Rat) < pow10 (digitCount n) := by
  obtain ⟨k, hk⟩ := Nat.exists_eq_succ_of_ne_zero (digitCount_pos n).ne'
  have hhigh : n < 10 ^ digitCount n :=
    (Nat.length_toDigits_le_iff (by norm_num) (digitCount_pos n)).mp le_rfl
  have hlow : 10 ^ k ≤ n := by
    by_cases hzero : k = 0
    · rw [hzero]
      omega
    · by_contra hless
      have := (Nat.length_toDigits_le_iff (n := n) (by norm_num : 1 < 10)
        (Nat.pos_of_ne_zero hzero)).mpr (not_le.mp hless)
      rw [← digits, ← digitCount] at this
      omega
  have hexponent : (digitCount n : Int) - 1 = k := by omega
  rw [hexponent, pow10_natCast, pow10_natCast]
  exact ⟨by exact_mod_cast hlow, by exact_mod_cast hhigh⟩

/-- A positive rational lies between two powers of ten next to each other. -/
theorem floorLog10_spec {q : Rat} (hq : 0 < q) :
    pow10 (floorLog10 q) ≤ q ∧ q < pow10 (floorLog10 q + 1) := by
  have hbetween : ∀ {n : Nat}, n ≠ 0 → pow10 (digitCount n - 1) ≤ (n : Rat) ∧
      (n : Rat) < pow10 (digitCount n - 1 + 1) := by
    intro n hn
    rw [sub_add_cancel]
    exact digitCount_between hn
  have hnum : q.num.natAbs ≠ 0 := by simpa using (Rat.num_pos.mpr hq).ne'
  obtain ⟨hlow, hhigh⟩ := fraction_between (b := 10) (by norm_num) hq (hbetween hnum)
    (hbetween q.den_ne_zero)
  have hguess : (digitCount q.num.natAbs : Int) - 1 - ((digitCount q.den : Int) - 1)
      = digitCount q.num.natAbs - digitCount q.den := by ring
  rw [hguess] at hlow hhigh
  unfold floorLog10
  dsimp only
  split
  · rename_i hle
    exact ⟨hle, hhigh⟩
  · rename_i hle
    exact ⟨hlow, by simpa using not_le.mp hle⟩

/-! ### Reading decimals -/

variable {d : Decimal}

theorem toRat_between (hd : d.coefficient ≠ 0) :
    pow10 (digitCount d.coefficient + d.exponent - 1) ≤ d.toRat ∧
      d.toRat < pow10 (digitCount d.coefficient + d.exponent) := by
  obtain ⟨hlow, hhigh⟩ := digitCount_between hd
  have hpos := pow10_pos d.exponent
  have hsplit : (digitCount d.coefficient : Int) + d.exponent - 1
      = (digitCount d.coefficient - 1) + d.exponent := by ring
  rw [hsplit, pow10_add, pow10_add]
  exact ⟨mul_le_mul_of_nonneg_right hlow hpos.le, mul_lt_mul_of_pos_right hhigh hpos⟩

theorem toRat_pos (hd : d.coefficient ≠ 0) : 0 < d.toRat :=
  (pow10_pos _).trans_le (toRat_between hd).1

/-- Reading a decimal is rounding its value: where the power of ten is not computed, rounding
would have gone beyond the format. -/
theorem toFloating_eq_round (hd : d.coefficient ≠ 0) (negative : Bool) :
    d.toFloating .double negative
      = Format.double.round (if negative then -d.toRat else d.toRat) := by
  obtain ⟨hlow, hhigh⟩ := toRat_between hd
  have hpos := toRat_pos hd
  have hfacts : ∃ q, q = (if negative then -d.toRat else d.toRat) ∧ |q| = d.toRat ∧ q ≠ 0 ∧
      decide (q < 0) = negative := by
    cases negative with
    | true => exact ⟨_, rfl, by simp [abs_of_pos hpos], by simp [hpos.ne'], by simp [hpos]⟩
    | false => exact ⟨_, rfl, by simp [abs_of_pos hpos], by simp [hpos.ne'], by simp [hpos.le]⟩
  obtain ⟨q, hq, habs, hne, hsign⟩ := hfacts
  unfold toFloating
  dsimp only
  rw [if_neg hd, ← hq]
  split
  · have hbeyond : pow2 Format.double.overflowExponent ≤ |q| := by
      rw [habs]
      calc pow2 Format.double.overflowExponent
          ≤ pow10 Format.double.overflowExponent := pow2_le_pow10 (by decide)
        _ ≤ pow10 (digitCount d.coefficient + d.exponent - 1) := pow10_le_pow10.mpr (by omega)
        _ ≤ d.toRat := hlow
    rw [Format.round_of_le (by decide) (by decide) hbeyond, hsign]
  · split
    · have hbelow : |q| < pow2 (Format.double.leastExponent - 1) := by
        rw [habs]
        calc d.toRat < pow10 (digitCount d.coefficient + d.exponent) := hhigh
          _ ≤ pow10 (Format.double.leastExponent - 1) := pow10_le_pow10.mpr (by omega)
          _ ≤ pow2 (Format.double.leastExponent - 1) := pow10_le_pow2 (by decide)
      rw [Format.round_of_lt hne hbelow, hsign]
    · rfl

/-! ### Nearest decimals -/

/-- A positive number of `n + 1` digits before the unit of the last one. -/
theorem digits_between {q : Rat} (hq : 0 < q) (n : Nat) :
    10 ^ n * pow10 (lastExponent (n + 1) q) ≤ q ∧
      q < 10 ^ (n + 1) * pow10 (lastExponent (n + 1) q) := by
  obtain ⟨hlow, hhigh⟩ := floorLog10_spec hq
  have hpower : ∀ m : Nat, (10 : Rat) ^ m * pow10 (lastExponent (n + 1) q)
      = pow10 (m + lastExponent (n + 1) q) := by
    intro m
    rw [pow10_add, pow10_natCast]
    push_cast
    rfl
  rw [hpower, hpower]
  have hlog : lastExponent (n + 1) q = floorLog10 q - n := by
    unfold lastExponent
    push_cast
    ring
  rw [hlog]
  constructor
  · rwa [add_sub_cancel]
  · push_cast
    rwa [show (n : Int) + 1 + (floorLog10 q - n) = floorLog10 q + 1 by ring]

/-- The coefficient of the nearest decimal with `n + 1` digits. -/
theorem coefficient_nearest {q : Rat} (hq : 0 < q) (n : Nat) :
    ((nearest (n + 1) q).coefficient : Int)
        = nearestEven (q / pow10 (lastExponent (n + 1) q)) ∧
      (nearest (n + 1) q).coefficient ≠ 0 := by
  have hunit := pow10_pos (lastExponent (n + 1) q)
  have hone : (1 : Int) ≤ 10 ^ n := one_le_pow₀ (by norm_num)
  have hmany : (10 ^ n : Int) ≤ nearestEven (q / pow10 (lastExponent (n + 1) q)) := by
    refine le_nearestEven ?_
    rw [le_div_iff₀ hunit]
    push_cast
    exact (digits_between hq n).1
  have hcoefficient : ((nearest (n + 1) q).coefficient : Int)
      = nearestEven (q / pow10 (lastExponent (n + 1) q)) := Int.toNat_of_nonneg (by omega)
  exact ⟨hcoefficient, by omega⟩

/-- The nearest decimal with `n + 1` digits comes as near to a number as half a unit of the last
one. -/
theorem nearest_near {q : Rat} (hq : 0 < q) (n : Nat) :
    |(nearest (n + 1) q).toRat - q| ≤ q / (2 * 10 ^ n) := by
  have hunit := pow10_pos (lastExponent (n + 1) q)
  have hdistance : (nearest (n + 1) q).toRat - q
      = ((nearestEven (q / pow10 (lastExponent (n + 1) q)) : Rat)
          - q / pow10 (lastExponent (n + 1) q)) * pow10 (lastExponent (n + 1) q) := by
    rw [← (coefficient_nearest hq n).1, toRat, Int.cast_natCast]
    have hexponent : (nearest (n + 1) q).exponent = lastExponent (n + 1) q := rfl
    rw [hexponent]
    field_simp
  have hhalf := abs_nearestEven_sub_le (q / pow10 (lastExponent (n + 1) q))
  rw [hdistance, abs_mul, abs_of_pos hunit, le_div_iff₀ (by positivity)]
  calc |(nearestEven (q / pow10 (lastExponent (n + 1) q)) : Rat)
          - q / pow10 (lastExponent (n + 1) q)| * pow10 (lastExponent (n + 1) q) * (2 * 10 ^ n)
      ≤ 1 / 2 * pow10 (lastExponent (n + 1) q) * (2 * 10 ^ n) := by gcongr
    _ = 10 ^ n * pow10 (lastExponent (n + 1) q) := by ring
    _ ≤ q := (digits_between hq n).1

/-- Seventeen digits come so near to a double that they are rounded to it. -/
theorem toFloating_nearest_seventeen {q : Rat} (hholds : Format.double.Holds q) (hq : 0 < q) :
    (nearest 17 q).toFloating .double false = .finite q := by
  rw [toFloating_eq_round (coefficient_nearest hq 16).2]
  refine Format.round_of_onGrid (Format.onGrid_of_near (by decide) hholds hq ?_) hholds.nonzero
    hholds.below
  refine (nearest_near hq 16).trans_lt ?_
  rw [show Format.double.precision = 53 from rfl]
  norm_num
  linarith

/-- The shortest decimal of a positive double reads back as the double. -/
theorem toFloating_shortestFrom {q : Rat} (hholds : Format.double.Holds q) (hq : 0 < q)
    {fuel count : Nat} (hcount : fuel + count = 17) :
    (shortestFrom .double q fuel count).toFloating .double false = .finite q := by
  induction fuel generalizing count with
  | zero =>
    obtain rfl : count = 17 := by omega
    exact toFloating_nearest_seventeen hholds hq
  | succ fuel ih =>
    rw [shortestFrom]
    split
    · rename_i d hfound
      simpa using List.find?_some hfound
    · exact ih (by omega)

private theorem coefficient_ne_zero {d : Decimal} {q : Rat}
    (h : d.toFloating .double false = .finite q) :
    d.coefficient ≠ 0 := by
  intro hzero
  simp [toFloating, hzero] at h

/-- Decimals of the same value are read in the same way. -/
theorem toFloating_congr {d d' : Decimal} (hd : d.coefficient ≠ 0) (h : d'.toRat = d.toRat)
    (negative : Bool) : d'.toFloating .double negative = d.toFloating .double negative := by
  have hd' : d'.coefficient ≠ 0 := by
    intro hzero
    have hpos := toRat_pos hd
    rw [← h, toRat, hzero] at hpos
    simp at hpos
  rw [toFloating_eq_round hd, toFloating_eq_round hd', h]

/-- The shortest decimal of the magnitude of a double reads back as the double, with its sign. -/
theorem toFloating_shortest {q : Rat} (hholds : Format.double.Holds q) :
    (shortest (magnitude q)).coefficient ≠ 0 ∧
      (shortest (magnitude q)).toFloating .double (decide (q < 0)) = .finite q := by
  have hpos := hholds.magnitude_pos
  have hread : (shortest (magnitude q)).toFloating .double false = .finite (magnitude q) :=
    toFloating_shortestFrom hholds.magnitude hpos rfl
  have hne := coefficient_ne_zero hread
  refine ⟨hne, ?_⟩
  rw [toFloating_eq_round hne] at hread ⊢
  by_cases hneg : q < 0
  · have hround := Format.round_neg hread
    rw [magnitude, if_pos hneg, neg_neg] at hround
    simpa [hneg, magnitude] using hround
  · simpa [hneg, magnitude] using hread

end Decimal

/-! ### Numbers without a sign -/

/-- A number that is defined and carries no minus sign. -/
structure Floating.Unsigned (x : Floating) : Prop where
  defined : x ≠ .nan
  plus : x.isNegative = false

private theorem Format.unsigned_round (f : Format) {q : Rat} (hq : 0 ≤ q) :
    (f.round q).Unsigned := by
  have hsign : decide (q < 0) = false := by simpa using hq
  have hgrid := f.onGrid_nonneg hq
  unfold round
  dsimp only
  split
  · exact ⟨by simp, hsign⟩
  · split
    · exact ⟨by simp, hsign⟩
    · exact ⟨by simp, by simpa [isNegative] using hgrid⟩

theorem Floating.Unsigned.toSingle {x : Floating} (h : x.Unsigned) : x.toSingle.Unsigned := by
  cases x with
  | nan => exact absurd rfl h.defined
  | infinite | zero => exact ⟨by simp [Floating.toSingle, Format.narrow], h.plus⟩
  | finite q => exact Format.single.unsigned_round (by simpa [isNegative] using h.plus)

/-- A decimal that is read without a sign gives a number without a sign. -/
theorem Decimal.unsigned_toFloating (f : Format) (d : Decimal) :
    (d.toFloating f false).Unsigned := by
  unfold toFloating
  dsimp only
  split
  · exact ⟨by simp, rfl⟩
  split
  · exact ⟨by simp, rfl⟩
  split
  · exact ⟨by simp, rfl⟩
  · refine f.unsigned_round ?_
    exact mul_nonneg (Nat.cast_nonneg _) (pow10_pos _).le

end DialogScript
