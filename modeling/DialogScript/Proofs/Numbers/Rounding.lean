import DialogScript.Number.Floating
import Mathlib.Algebra.Order.Field.Power
import Mathlib.Data.Rat.Floor
import Mathlib.Tactic.FieldSimp
import Mathlib.Tactic.Linarith
import Mathlib.Tactic.Positivity
import Mathlib.Tactic.Ring

/-!
# Rounding

A format holds the numbers that have few enough bits and lie on its grid and below its bound
(`Format.Holds`). Rounding leaves these numbers as they are (`Format.Holds.round`), and what
rounding gives is one of them or beyond the format (`Format.holds_of_round`); so rounding twice is
rounding once, and a single is also a double.

Logarithms and nearest integers are computed by comparing; `floorLog2_spec` and
`abs_nearestEven_sub_le` say what they come to.
-/

namespace DialogScript

namespace Floating

/-! ### Powers of two -/

theorem pow2_pos (e : Int) : 0 < pow2 e := zpow_pos (by norm_num) e

theorem pow2_add (a b : Int) : pow2 (a + b) = pow2 a * pow2 b := zpow_add₀ (by norm_num) a b

theorem pow2_le_pow2 {a b : Int} : pow2 a ≤ pow2 b ↔ a ≤ b :=
  zpow_le_zpow_iff_right₀ (by norm_num)

theorem pow2_lt_pow2 {a b : Int} : pow2 a < pow2 b ↔ a < b :=
  zpow_lt_zpow_iff_right₀ (by norm_num)

private theorem pow2_natCast (n : Nat) : pow2 n = ((2 ^ n : Nat) : Rat) := by
  simp [pow2]

theorem pow2_sub_natCast (a : Int) (n : Nat) : pow2 (a - n) = pow2 a / 2 ^ n := by
  have hpower : pow2 n = 2 ^ n := zpow_natCast 2 n
  rw [eq_div_iff (by positivity), ← hpower, ← pow2_add, sub_add_cancel]

theorem pow2_add_one (a : Int) : pow2 (a + 1) = 2 * pow2 a := by
  rw [pow2_add, mul_comm]
  rfl

theorem pow2_sub_one (a : Int) : pow2 (a - 1) = pow2 a / 2 := by
  simpa using pow2_sub_natCast a 1

/-- Where a fraction lies between the powers of a base, given where its parts lie. -/
theorem fraction_between {b q : Rat} (hb : 1 < b) (hq : 0 < q) {s t : Int}
    (hnum : b ^ s ≤ (q.num.natAbs : Rat) ∧ (q.num.natAbs : Rat) < b ^ (s + 1))
    (hden : b ^ t ≤ (q.den : Rat) ∧ (q.den : Rat) < b ^ (t + 1)) :
    b ^ (s - t - 1) ≤ q ∧ q < b ^ (s - t + 1) := by
  have hb₀ : b ≠ 0 := by positivity
  have hpos : (0 : Rat) < q.den := by exact_mod_cast q.den_pos
  have hratio : q * q.den = q.num.natAbs := by
    have habs : (q.num.natAbs : Int) = q.num := Int.natAbs_of_nonneg (Rat.num_pos.mpr hq).le
    rw [Rat.mul_den_eq_num, ← Int.cast_natCast, habs]
  have hlow : b ^ (s - t - 1) * b ^ (t + 1) = b ^ s := by
    rw [← zpow_add₀ hb₀]
    congr 1
    ring
  have hhigh : b ^ (s - t + 1) * b ^ t = b ^ (s + 1) := by
    rw [← zpow_add₀ hb₀]
    congr 1
    ring
  constructor
  · refine le_of_mul_le_mul_right ?_ hpos
    calc b ^ (s - t - 1) * q.den ≤ b ^ (s - t - 1) * b ^ (t + 1) :=
          mul_le_mul_of_nonneg_left hden.2.le (by positivity)
      _ = b ^ s := hlow
      _ ≤ q * q.den := hratio ▸ hnum.1
  · refine lt_of_mul_lt_mul_right ?_ hpos.le
    calc q * q.den < b ^ (s + 1) := hratio ▸ hnum.2
      _ = b ^ (s - t + 1) * b ^ t := hhigh.symm
      _ ≤ b ^ (s - t + 1) * q.den := mul_le_mul_of_nonneg_left hden.1 (by positivity)

private theorem log2_between {n : Nat} (hn : n ≠ 0) :
    pow2 n.log2 ≤ (n : Rat) ∧ (n : Rat) < pow2 (n.log2 + 1) := by
  rw [← Nat.cast_succ, pow2_natCast, pow2_natCast]
  exact ⟨by exact_mod_cast Nat.log2_self_le hn, by exact_mod_cast Nat.lt_log2_self⟩

/-- A positive rational lies between two powers of two next to each other. -/
theorem floorLog2_spec {q : Rat} (hq : 0 < q) :
    pow2 (floorLog2 q) ≤ q ∧ q < pow2 (floorLog2 q + 1) := by
  have hnum : q.num.natAbs ≠ 0 := by simpa using (Rat.num_pos.mpr hq).ne'
  obtain ⟨hlow, hhigh⟩ := fraction_between (b := 2) (by norm_num) hq (log2_between hnum)
    (log2_between q.den_ne_zero)
  unfold floorLog2
  dsimp only
  split
  · rename_i hguess
    exact ⟨hguess, hhigh⟩
  · rename_i hguess
    exact ⟨hlow, by simpa using not_le.mp hguess⟩

theorem le_floorLog2 {q : Rat} {e : Int} (hq : 0 < q) (h : pow2 e ≤ q) : e ≤ floorLog2 q := by
  have := pow2_lt_pow2.mp (h.trans_lt (floorLog2_spec hq).2)
  omega

theorem floorLog2_lt {q : Rat} {e : Int} (hq : 0 < q) (h : q < pow2 e) : floorLog2 q < e :=
  pow2_lt_pow2.mp ((floorLog2_spec hq).1.trans_lt h)

/-! ### Nearest integers -/

theorem nearestEven_cases (x : Rat) :
    (nearestEven x = x.floor ∧ x - x.floor ≤ 1 / 2) ∨
      (nearestEven x = x.floor + 1 ∧ 1 / 2 ≤ x - x.floor) := by
  have hhalf : mkRat 1 2 = (1 / 2 : Rat) := by norm_num
  unfold nearestEven
  simp only [hhalf]
  split_ifs with hless hmore heven
  · exact .inl ⟨rfl, hless.le⟩
  · exact .inr ⟨rfl, hmore.le⟩
  · exact .inl ⟨rfl, not_lt.mp hmore⟩
  · exact .inr ⟨rfl, not_lt.mp hless⟩

theorem abs_nearestEven_sub_le (x : Rat) : |(nearestEven x : Rat) - x| ≤ 1 / 2 := by
  have hlow := Rat.floor_le x
  have hhigh := Rat.lt_floor_add_one x
  push_cast at hhigh
  rw [abs_le]
  rcases nearestEven_cases x with ⟨heq, hle⟩ | ⟨heq, hle⟩
  · rw [heq]
    constructor <;> linarith
  · rw [heq]
    push_cast
    constructor <;> linarith

/-- The integer within less than a half of a number is the nearest one. -/
theorem nearestEven_eq {x : Rat} {n : Int} (h : |x - n| < 1 / 2) : nearestEven x = n := by
  have hnear := abs_nearestEven_sub_le x
  have hclose : |((nearestEven x - n : Int) : Rat)| < 1 := by
    push_cast
    calc |(nearestEven x : Rat) - n| = |((nearestEven x : Rat) - x) + (x - n)| := by ring_nf
      _ ≤ |(nearestEven x : Rat) - x| + |x - n| := abs_add_le _ _
      _ < 1 := by linarith
  have hzero : |nearestEven x - n| < 1 := by exact_mod_cast hclose
  have := Int.abs_lt_one_iff.mp hzero
  omega

theorem le_nearestEven {x : Rat} {n : Int} (h : (n : Rat) ≤ x) : n ≤ nearestEven x := by
  have hfloor : n ≤ x.floor := Rat.le_floor_iff.mpr h
  rcases nearestEven_cases x with ⟨heq, -⟩ | ⟨heq, -⟩ <;> omega

theorem nearestEven_le {x : Rat} {n : Int} (h : x ≤ n) : nearestEven x ≤ n := by
  have hlow := Rat.floor_le x
  rcases nearestEven_cases x with ⟨heq, -⟩ | ⟨heq, hhalf⟩
  · have : (x.floor : Rat) ≤ n := hlow.trans h
    rw [heq]
    exact_mod_cast this
  · have : (x.floor : Rat) < n := by linarith
    rw [heq]
    have : x.floor < n := by exact_mod_cast this
    omega

theorem nearestEven_tie (n : Int) :
    nearestEven (n + 1 / 2) = if n % 2 = 0 then n else n + 1 := by
  have hfloor : ((n : Rat) + 1 / 2).floor = n := by
    change ⌊(n : Rat) + 1 / 2⌋ = n
    rw [Int.floor_eq_iff]
    constructor <;> linarith
  have hhalf : mkRat 1 2 = (1 / 2 : Rat) := by norm_num
  have hrest : (n : Rat) + 1 / 2 - n = 1 / 2 := by ring
  simp only [nearestEven, hfloor, hhalf, hrest, lt_irrefl, if_false]

theorem nearestEven_neg (x : Rat) : nearestEven (-x) = -nearestEven x := by
  have hlow := Rat.floor_le x
  have hhigh := Rat.lt_floor_add_one x
  push_cast at hhigh
  rcases lt_trichotomy (x - x.floor) (1 / 2) with hless | htie | hmore
  · have hx : nearestEven x = x.floor := nearestEven_eq (abs_lt.mpr ⟨by linarith, hless⟩)
    rw [hx]
    refine nearestEven_eq (abs_lt.mpr ?_)
    push_cast
    constructor <;> linarith
  · -- On both sides of zero a tie goes to the even neighbour.
    obtain ⟨n, rfl⟩ : ∃ n : Int, x = n + 1 / 2 := ⟨x.floor, by linarith⟩
    have hneg : -((n : Rat) + 1 / 2) = ((-n - 1 : Int) : Rat) + 1 / 2 := by
      push_cast
      ring
    rw [hneg, nearestEven_tie, nearestEven_tie]
    split_ifs <;> omega
  · have hx : nearestEven x = x.floor + 1 :=
      nearestEven_eq (abs_lt.mpr (by push_cast; constructor <;> linarith))
    rw [hx]
    refine nearestEven_eq (abs_lt.mpr ?_)
    push_cast
    constructor <;> linarith

theorem magnitude_eq_abs (q : Rat) : magnitude q = |q| := by
  unfold magnitude
  split
  · rename_i hneg
    exact (abs_of_neg hneg).symm
  · rename_i hneg
    exact (abs_of_nonneg (not_lt.mp hneg)).symm

end Floating

namespace Format

open Floating

/-! ### Numbers of a format -/

variable {f : Format} {q r : Rat}

/-- The nonzero numbers that a format can hold: those with at most `precision` significant bits
that are multiples of the least unit and lie below the overflow bound. -/
structure Holds (f : Format) (q : Rat) : Prop where
  nonzero : q ≠ 0
  bits : ∃ (n e : Int), q = n * pow2 e ∧ |n| < 2 ^ f.precision ∧ f.leastExponent ≤ e
  below : |q| < pow2 f.overflowExponent

/-- A number on the grid around `q` that is nearer to `q` than half a unit is what `q` is brought
to. -/
theorem onGrid_eq {n : Int} (hr : r = n * pow2 (f.gridExponent q))
    (h : |q - r| < pow2 (f.gridExponent q) / 2) : f.onGrid q = r := by
  have hunit := pow2_pos (f.gridExponent q)
  have hnearest : nearestEven (q / pow2 (f.gridExponent q)) = n := by
    refine nearestEven_eq ?_
    have hscaled : q / pow2 (f.gridExponent q) - n = (q - r) / pow2 (f.gridExponent q) := by
      rw [hr]
      field_simp
    rw [hscaled, abs_div, abs_of_pos hunit, div_lt_iff₀ hunit]
    linarith
  simp only [onGrid, hnearest, hr]

/-- A number whose unit is at least that of the grid is on the grid. -/
theorem exists_eq_mul_pow2 {n e g : Int} (hq : q = n * pow2 e) (h : g ≤ e) :
    ∃ m : Int, q = m * pow2 g := by
  obtain ⟨t, ht⟩ := Int.le.dest h
  refine ⟨n * 2 ^ t, ?_⟩
  rw [hq, ← ht, add_comm, pow2_add, pow2_natCast]
  push_cast
  ring

/-- A number of few bits lies below the power of two of as many bits. -/
theorem abs_lt_of_bits {n e : Int} {p : Nat} (hq : q = n * pow2 e) (hn : |n| < 2 ^ p) :
    |q| < pow2 (p + e) := by
  rw [hq, abs_mul, abs_of_pos (pow2_pos e), pow2_add, pow2_natCast]
  refine mul_lt_mul_of_pos_right ?_ (pow2_pos e)
  exact_mod_cast hn

theorem gridExponent_le {n e : Int} (hq : q = n * pow2 e) (hne : q ≠ 0)
    (hn : |n| < 2 ^ f.precision) (he : f.leastExponent ≤ e) : f.gridExponent q ≤ e := by
  have hlog := floorLog2_lt (abs_pos.mpr hne) (abs_lt_of_bits hq hn)
  unfold gridExponent
  rw [magnitude_eq_abs]
  omega

theorem round_of_onGrid (hgrid : f.onGrid q = r) (hne : r ≠ 0)
    (hbelow : |r| < pow2 f.overflowExponent) : f.round q = .finite r := by
  unfold round
  dsimp only
  rw [hgrid, if_neg hne, if_neg (by rw [magnitude_eq_abs]; exact not_le.mpr hbelow)]

theorem round_of_onGrid_zero (hgrid : f.onGrid q = 0) : f.round q = .zero (decide (q < 0)) := by
  unfold round
  dsimp only
  rw [if_pos hgrid]

theorem round_of_onGrid_beyond (hbeyond : pow2 f.overflowExponent ≤ |f.onGrid q|) :
    f.round q = .infinite (decide (q < 0)) := by
  unfold round
  dsimp only
  rw [if_neg (abs_pos.mp ((pow2_pos _).trans_le hbeyond)), if_pos (by rwa [magnitude_eq_abs])]

theorem onGrid_of_round (h : f.round q = .finite r) : f.onGrid q = r := by
  unfold round at h
  dsimp only at h
  split_ifs at h
  exact Floating.finite.inj h

theorem Holds.onGrid (h : f.Holds q) : f.onGrid q = q := by
  obtain ⟨hne, ⟨n, e, hq, hn, he⟩, -⟩ := h
  obtain ⟨m, hm⟩ := exists_eq_mul_pow2 hq (gridExponent_le hq hne hn he)
  refine onGrid_eq hm ?_
  rw [sub_self, abs_zero]
  exact half_pos (pow2_pos _)

/-- A number that a format holds is not changed by rounding. -/
theorem Holds.round (h : f.Holds q) : f.round q = .finite q :=
  round_of_onGrid h.onGrid h.nonzero h.below

/-- Rounding to the grid leaves at most one bit more than the precision. -/
theorem abs_nearestEven_le (f : Format) (q : Rat) :
    |nearestEven (q / pow2 (f.gridExponent q))| ≤ 2 ^ f.precision := by
  have hunit := pow2_pos (f.gridExponent q)
  have hbound : |q / pow2 (f.gridExponent q)| ≤ ((2 ^ f.precision : Int) : Rat) := by
    by_cases hq : q = 0
    · rw [hq, zero_div, abs_zero]
      positivity
    · have hless := (floorLog2_spec (abs_pos.mpr hq)).2
      have hexponent : floorLog2 |q| + 1 ≤ f.precision + f.gridExponent q := by
        unfold gridExponent
        rw [magnitude_eq_abs]
        omega
      rw [abs_div, abs_of_pos hunit, div_le_iff₀ hunit]
      calc |q| ≤ pow2 (f.precision + f.gridExponent q) :=
            hless.le.trans (pow2_le_pow2.mpr hexponent)
        _ = ((2 ^ f.precision : Int) : Rat) * pow2 (f.gridExponent q) := by
            rw [pow2_add, pow2_natCast]
            push_cast
            ring
  obtain ⟨hlow, hhigh⟩ := abs_le.mp hbound
  refine abs_le.mpr ⟨le_nearestEven ?_, nearestEven_le hhigh⟩
  push_cast
  push_cast at hlow
  exact hlow

/-- Rounding to the grid leaves few enough bits. -/
theorem bits_onGrid (hf : 0 < f.precision) (q : Rat) :
    ∃ n e : Int, f.onGrid q = n * pow2 e ∧ |n| < 2 ^ f.precision ∧ f.leastExponent ≤ e := by
  obtain ⟨p, hp⟩ := Nat.exists_eq_succ_of_ne_zero hf.ne'
  have hleast : f.leastExponent ≤ f.gridExponent q := le_max_left _ _
  rcases (abs_nearestEven_le f q).lt_or_eq with hless | heq
  · exact ⟨_, _, rfl, hless, hleast⟩
  · -- A carry into one bit more leaves a power of two, which needs a single bit.
    have hcarry : ∃ m : Int, nearestEven (q / pow2 (f.gridExponent q)) = m * 2 ∧
        |m| < 2 ^ f.precision := by
      rw [hp, pow_succ] at heq ⊢
      have hpower : (0 : Int) < 2 ^ p := by positivity
      rcases (abs_eq (by positivity)).mp heq with heq | heq
      · exact ⟨2 ^ p, heq, by rw [abs_of_pos hpower]; omega⟩
      · exact ⟨-2 ^ p, by rw [heq]; ring, by rw [abs_neg, abs_of_pos hpower]; omega⟩
    obtain ⟨m, hm, hless⟩ := hcarry
    refine ⟨m, f.gridExponent q + 1, ?_, hless, by omega⟩
    rw [onGrid, hm, pow2_add, show pow2 1 = 2 from rfl]
    push_cast
    ring

/-- What is finite after rounding is a number that the format holds. -/
theorem holds_of_round (hf : 0 < f.precision) (h : f.round q = .finite r) : f.Holds r := by
  unfold round at h
  dsimp only at h
  split_ifs at h with hzero hbeyond
  obtain rfl := Floating.finite.inj h
  rw [magnitude_eq_abs, not_le] at hbeyond
  exact ⟨hzero, bits_onGrid hf q, hbeyond⟩

/-- Rounding twice is rounding once. -/
theorem round_round (hf : 0 < f.precision) (h : f.round q = .finite r) : f.round r = .finite r :=
  (holds_of_round hf h).round

/-- A format that is finer and reaches further holds what another one holds. -/
theorem Holds.mono {g : Format} (h : f.Holds q) (hprecision : f.precision ≤ g.precision)
    (hleast : g.leastExponent ≤ f.leastExponent)
    (hoverflow : f.overflowExponent ≤ g.overflowExponent) : g.Holds q := by
  obtain ⟨hne, ⟨n, e, hq, hn, he⟩, hbelow⟩ := h
  refine ⟨hne, ⟨n, e, hq, hn.trans_le ?_, hleast.trans he⟩, hbelow.trans_le ?_⟩
  · exact pow_le_pow_right₀ (by norm_num) hprecision
  · exact pow2_le_pow2.mpr (by exact_mod_cast hoverflow)

theorem Holds.neg (h : f.Holds q) : f.Holds (-q) := by
  obtain ⟨hne, ⟨n, e, hq, hn, he⟩, hbelow⟩ := h
  refine ⟨neg_ne_zero.mpr hne, ⟨-n, e, ?_, by rwa [abs_neg], he⟩, by rwa [abs_neg]⟩
  rw [hq]
  push_cast
  ring

theorem Holds.magnitude (h : f.Holds q) : f.Holds (magnitude q) := by
  unfold Floating.magnitude
  split
  · exact h.neg
  · exact h

theorem Holds.magnitude_pos (h : f.Holds q) : 0 < Floating.magnitude q := by
  rw [magnitude_eq_abs]
  exact abs_pos.mpr h.nonzero

private theorem gridExponent_neg (f : Format) (q : Rat) :
    f.gridExponent (-q) = f.gridExponent q := by
  rw [gridExponent, gridExponent, magnitude_eq_abs, magnitude_eq_abs, abs_neg]

theorem gridExponent_abs (f : Format) (q : Rat) : f.gridExponent |q| = f.gridExponent q := by
  rw [gridExponent, gridExponent, magnitude_eq_abs, magnitude_eq_abs, abs_abs]

theorem onGrid_neg (f : Format) (q : Rat) : f.onGrid (-q) = -f.onGrid q := by
  simp only [onGrid, gridExponent_neg, neg_div, nearestEven_neg]
  push_cast
  ring

theorem round_neg (h : f.round q = .finite r) : f.round (-q) = .finite (-r) := by
  unfold round at h ⊢
  dsimp only at h ⊢
  split_ifs at h with hzero hbeyond
  obtain rfl := Floating.finite.inj h
  rw [magnitude_eq_abs] at hbeyond
  rw [onGrid_neg, if_neg (neg_ne_zero.mpr hzero),
    if_neg (by rwa [magnitude_eq_abs, abs_neg])]

/-! ### Beyond a format -/

theorem onGrid_nonneg (f : Format) (hq : 0 ≤ q) : 0 ≤ f.onGrid q := by
  have hunit := pow2_pos (f.gridExponent q)
  have hnearest : 0 ≤ nearestEven (q / pow2 (f.gridExponent q)) :=
    le_nearestEven (by simpa using div_nonneg hq hunit.le)
  exact mul_nonneg (by exact_mod_cast hnearest) hunit.le

theorem abs_onGrid (f : Format) (q : Rat) : |f.onGrid q| = f.onGrid |q| := by
  have hnonneg := f.onGrid_nonneg (abs_nonneg q)
  rcases abs_choice q with h | h
  · rw [h] at hnonneg ⊢
    exact abs_of_nonneg hnonneg
  · rw [h] at hnonneg ⊢
    rw [onGrid_neg] at hnonneg ⊢
    exact abs_of_nonpos (by linarith)

/-- Rounding does not go below a power of two that the format holds. -/
theorem pow2_le_abs_onGrid {k : Int} (hf : 0 < f.precision) (hleast : f.leastExponent ≤ k)
    (h : pow2 k ≤ |q|) : pow2 k ≤ |f.onGrid q| := by
  have hpos : 0 < |q| := (pow2_pos _).trans_le h
  have hlog := le_floorLog2 hpos h
  have hgrid : f.gridExponent |q| ≤ floorLog2 |q| := by
    unfold gridExponent
    rw [magnitude_eq_abs, abs_abs]
    omega
  -- The power of two at or below the number is on the grid.
  obtain ⟨m, hm⟩ := exists_eq_mul_pow2 (q := pow2 (floorLog2 |q|)) (n := 1) (by simp) hgrid
  have hunit := pow2_pos (f.gridExponent |q|)
  have hnearest : m ≤ nearestEven (|q| / pow2 (f.gridExponent |q|)) := by
    refine le_nearestEven ?_
    rw [le_div_iff₀ hunit, ← hm]
    exact (floorLog2_spec hpos).1
  rw [abs_onGrid]
  calc pow2 k ≤ pow2 (floorLog2 |q|) := pow2_le_pow2.mpr hlog
    _ = m * pow2 (f.gridExponent |q|) := hm
    _ ≤ f.onGrid |q| := mul_le_mul_of_nonneg_right (by exact_mod_cast hnearest) hunit.le

private theorem onGrid_ne_zero {k : Int} (hf : 0 < f.precision) (hleast : f.leastExponent ≤ k)
    (h : pow2 k ≤ |q|) : f.onGrid q ≠ 0 :=
  abs_pos.mp ((pow2_pos k).trans_le (pow2_le_abs_onGrid hf hleast h))

/-- What is at least a power of two that the format holds is no zero after rounding, and no less
than the power. -/
theorem round_of_pow2_le {k : Int} (hf : 0 < f.precision) (hleast : f.leastExponent ≤ k)
    (h : pow2 k ≤ |q|) :
    (f.round q).isZero = false ∧ ∀ r, f.round q = .finite r → pow2 k ≤ |r| := by
  have hbound := pow2_le_abs_onGrid hf hleast h
  unfold round
  dsimp only
  rw [if_neg (onGrid_ne_zero hf hleast h)]
  split
  · exact ⟨rfl, by simp⟩
  · refine ⟨rfl, fun r hr => ?_⟩
    rwa [← Floating.finite.inj hr]

/-- What lies beyond the bound of a format is infinite. -/
theorem round_of_le (hf : 0 < f.precision) (hleast : f.leastExponent ≤ f.overflowExponent)
    (h : pow2 f.overflowExponent ≤ |q|) : f.round q = .infinite (decide (q < 0)) :=
  round_of_onGrid_beyond (pow2_le_abs_onGrid hf hleast h)

/-- What is nearer to zero than half of the least unit is zero. -/
theorem round_of_lt (hne : q ≠ 0) (h : |q| < pow2 (f.leastExponent - 1)) :
    f.round q = .zero (decide (q < 0)) := by
  have hlog := floorLog2_lt (abs_pos.mpr hne) h
  have hgrid : f.gridExponent q = f.leastExponent := by
    unfold gridExponent
    rw [magnitude_eq_abs]
    omega
  refine round_of_onGrid_zero (onGrid_eq (n := 0) (by simp) ?_)
  rw [sub_zero, hgrid]
  calc |q| < pow2 (f.leastExponent - 1) := h
    _ = pow2 f.leastExponent / 2 := pow2_sub_one _

end Format

namespace Floating

/-- A number is one of single precision. -/
def IsSingle (x : Floating) : Prop := x.toSingle = x

theorem isSingle_toSingle (x : Floating) : x.toSingle.IsSingle := by
  cases x with
  | nan | infinite | zero => rfl
  | finite q =>
    change Format.single.narrow (Format.single.round q) = Format.single.round q
    cases hround : Format.single.round q with
    | nan | infinite | zero => rfl
    | finite r => exact Format.round_round (by decide) hround

/-- A nonzero integer does not become zero in single precision. -/
theorem isZero_toSingle_ofInt {n : Int} (hn : n ≠ 0) : (ofInt n).toSingle.isZero = false := by
  have hone : pow2 0 ≤ |(n : Rat)| := by
    rw [show pow2 0 = 1 from rfl]
    exact_mod_cast Int.one_le_abs hn
  obtain ⟨hzero, hfinite⟩ : (ofInt n).isZero = false ∧ ∀ r, ofInt n = .finite r → pow2 0 ≤ |r| :=
    Format.round_of_pow2_le (by decide) (by decide) hone
  cases hdouble : ofInt n with
  | nan | infinite => rfl
  | zero s => rw [hdouble] at hzero; exact hzero
  | finite r => exact (Format.round_of_pow2_le (by decide) (by decide) (hfinite r hdouble)).1

theorem IsSingle.holds_single {q : Rat} (h : (finite q).IsSingle) : Format.single.Holds q :=
  Format.holds_of_round (by decide) h

/-- Double precision holds every number of single precision. -/
theorem IsSingle.holds_double {q : Rat} (h : (finite q).IsSingle) : Format.double.Holds q :=
  h.holds_single.mono (by decide) (by decide) (by decide)

end Floating

end DialogScript
