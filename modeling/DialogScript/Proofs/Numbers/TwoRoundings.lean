import DialogScript.Number.Display
import DialogScript.Proofs.Numbers.Decimals

/-!
# Rounding to a single through a double

A decimal is read as a double and then brought to single precision, so it is rounded twice
(`Floating.throughDouble`). Two roundings keep the order of numbers, and they leave singles as they
are, so all that lies between a single and something that is read as the single is read as it too
(`Floating.throughDouble_of_between`). They do not always give the single nearest to a number, but
they are off by at most half a unit of both formats (`Floating.abs_throughDouble_sub_le`).

Around a single that is no power of two the numbers read as it lie symmetrically, so what is nearer
to it than one of them is one of them (`Floating.throughDouble_of_nearer`).
-/

namespace DialogScript

open Format

namespace Floating

/-- A number brought to the grid of doubles and then to that of singles. -/
def throughDouble (x : Rat) : Rat := single.onGrid (double.onGrid x)

variable {x y q : Rat} {k : Int}

/-- What is read as a positive single is what the two roundings bring to it. -/
theorem toSingle_round_eq_iff (hq : single.Holds q) :
    (double.round x).toSingle = .finite q ↔ throughDouble x = q := by
  constructor
  · intro h
    cases hround : double.round x with
    | nan | infinite | zero => simp [hround, toSingle, narrow] at h
    | finite y =>
      rw [hround] at h
      rw [throughDouble, onGrid_of_round hround]
      exact onGrid_of_round h
  · intro h
    have hne : double.onGrid x ≠ 0 := by
      intro heq
      rw [throughDouble, heq, onGrid_zero] at h
      exact hq.nonzero h.symm
    have hbelow : |double.onGrid x| < pow2 double.overflowExponent := by
      by_contra hle
      have hless := pow2_le_abs_onGrid (f := single) (by decide) (by decide) (not_lt.mp hle)
      rw [← throughDouble, h] at hless
      exact absurd (hless.trans_lt hq.below) (by rw [pow2_lt_pow2]; decide)
    rw [round_of_onGrid rfl hne hbelow]
    exact round_of_onGrid h hq.nonzero hq.below

/-! ### Order -/

private theorem throughDouble_mono (hx : 0 ≤ x) (h : x ≤ y) : throughDouble x ≤ throughDouble y :=
  onGrid_mono (by decide) (onGrid_nonneg _ hx) (onGrid_mono (by decide) hx h)

/-- What is brought above a number that the roundings do not change is above this number. -/
theorem lt_of_lt_throughDouble (hx : 0 ≤ x) (hy : throughDouble y = y)
    (h : y < throughDouble x) : y < x := by
  by_contra hle
  have hmono := throughDouble_mono hx (not_lt.mp hle)
  linarith

/-- What is brought below a number that the roundings do not change is below this number. -/
theorem lt_of_throughDouble_lt (hpos : 0 ≤ y) (hy : throughDouble y = y)
    (h : throughDouble x < y) : x < y := by
  by_contra hle
  have hmono := throughDouble_mono hpos (not_lt.mp hle)
  linarith

private theorem throughDouble_of_holds (h : single.Holds q) : throughDouble q = q := by
  have hdouble : double.Holds q := h.mono (by decide) (by decide) (by decide)
  rw [throughDouble, hdouble.onGrid, h.onGrid]

theorem throughDouble_pow2 (hleast : single.leastExponent ≤ k) :
    throughDouble (pow2 k) = pow2 k := by
  have hdouble : double.leastExponent ≤ k := le_trans (by decide) hleast
  rw [throughDouble, onGrid_pow2 (by decide) hdouble, onGrid_pow2 (by decide) hleast]

/-- What lies between a single and a number that is read as it is read as it, too. -/
theorem throughDouble_of_between (hq : single.Holds q) (hx : 0 ≤ x) (hpos : 0 ≤ q)
    (h : throughDouble x = q) (hy : (x ≤ y ∧ y ≤ q) ∨ (q ≤ y ∧ y ≤ x)) : throughDouble y = q := by
  have hfixed := throughDouble_of_holds hq
  rcases hy with ⟨hlow, hhigh⟩ | ⟨hlow, hhigh⟩
  · have hbelow := throughDouble_mono hx hlow
    have habove := throughDouble_mono (hx.trans hlow) hhigh
    rw [h] at hbelow
    rw [hfixed] at habove
    exact le_antisymm habove hbelow
  · have hbelow := throughDouble_mono hpos hlow
    have habove := throughDouble_mono (hpos.trans hlow) hhigh
    rw [hfixed] at hbelow
    rw [h] at habove
    exact le_antisymm habove hbelow

/-! ### Distance -/

theorem unitExponent_single (k : Int) : single.unitExponent k = max (-149) (k - 23) := rfl

theorem unitExponent_double (k : Int) : double.unitExponent k = max (-1074) (k - 52) := rfl

private theorem unitExponent_double_le (k : Int) :
    double.unitExponent k ≤ single.unitExponent k := by
  rw [unitExponent_single, unitExponent_double]
  omega

/-- A number so near to a single that no rounding error of a double matters is read as it. -/
theorem throughDouble_of_near (hq : single.Holds q) (hpos : 0 < q)
    (hnear : |x - q| ≤ q / (2 * 10 ^ 8)) : throughDouble x = q := by
  obtain ⟨hleft, hright⟩ := abs_le.mp hnear
  have hleast : pow2 (-149) ≤ q := hq.least_le hpos
  have hx : pow2 (-149 - 1) ≤ x := by
    rw [pow2_sub_one]
    have : q / (2 * 10 ^ 8) ≤ q / 2 := div_le_div_of_nonneg_left hpos.le (by norm_num) (by norm_num)
    linarith
  -- The error of the first rounding takes little of the room that the second one leaves.
  have herror := abs_onGrid_sub_le_div (f := double) ((pow2_le_pow2.mpr (by decide)).trans hx)
  refine onGrid_of_near (by decide) hq hpos ?_
  have htriangle := abs_sub_le (double.onGrid x) x q
  rw [show double.precision = 53 from rfl] at herror
  rw [show single.precision = 24 from rfl]
  norm_num at herror hright ⊢
  linarith

/-- Below a power of two the two roundings are off by at most half a unit of each format. -/
theorem abs_throughDouble_sub_le (hleast : single.leastExponent ≤ k + 1) (hx : 0 < x)
    (hless : x < pow2 (k + 1)) :
    |throughDouble x - x| ≤ (pow2 (single.unitExponent k) + pow2 (double.unitExponent k)) / 2 := by
  have hdouble : double.leastExponent ≤ k + 1 := le_trans (by decide) hleast
  have hbelow : |x| ≤ pow2 (k + 1) := by
    rw [abs_of_pos hx]
    exact hless.le
  have hgrid : |double.onGrid x| ≤ pow2 (k + 1) := by
    have hmono := onGrid_mono (f := double) (by decide) (abs_nonneg x) hbelow
    rwa [onGrid_pow2 (by decide) hdouble, ← abs_onGrid] at hmono
  have hfirst := abs_onGrid_sub_le_unit (f := double) (by decide) hdouble hbelow
  have hsecond := abs_onGrid_sub_le_unit (f := single) (by decide) hleast hgrid
  have htriangle := abs_sub_le (throughDouble x) (double.onGrid x) x
  rw [throughDouble] at htriangle ⊢
  linarith

/-- Between two powers of two, what is nearer to a multiple of the unit than the rounding errors may
reach is read as the multiple. -/
theorem throughDouble_of_close {m : Int} (hleast : single.leastExponent ≤ k + 1)
    (hx : pow2 k ≤ x ∧ x < pow2 (k + 1)) (hq : q = m * pow2 (single.unitExponent k))
    (hclose : |x - q| < (pow2 (single.unitExponent k) - pow2 (double.unitExponent k)) / 2) :
    throughDouble x = q := by
  have hdouble : double.leastExponent ≤ k := by
    have : double.leastExponent + 1 ≤ single.leastExponent := by decide
    omega
  obtain ⟨n, hn⟩ : ∃ n : Int, throughDouble x = n * pow2 (single.unitExponent k) := by
    obtain ⟨hlow, hhigh⟩ := onGrid_between (f := double) (by decide) hdouble ⟨hx.1, hx.2.le⟩
    rcases hhigh.lt_or_eq with hless | heq
    · refine ⟨nearestEven (double.onGrid x / pow2 (single.unitExponent k)), ?_⟩
      rw [throughDouble, onGrid, gridExponent_of_between hlow hless]
    · rw [throughDouble, heq, onGrid_pow2 (by decide) hleast]
      exact pow2_multiple (by unfold unitExponent; omega)
  -- Both are multiples of the unit, and they are less than a unit apart.
  have herror := abs_throughDouble_sub_le hleast ((pow2_pos k).trans_le hx.1) hx.2
  have hnear := (abs_sub_le (throughDouble x) x q).trans_lt (add_lt_add_of_le_of_lt herror hclose)
  exact eq_of_multiple hn hq (by linarith)

/-! ### Symmetry -/

private theorem throughDouble_of_multiple {m : Int} (hleast : single.leastExponent ≤ k)
    (hx : pow2 k ≤ x ∧ x ≤ pow2 (k + 1)) (hm : x = m * pow2 (single.unitExponent k)) :
    throughDouble x = x := by
  have hdouble : double.leastExponent ≤ k := le_trans (by decide) hleast
  rw [throughDouble, onGrid_of_unit (by decide) hdouble hx hm (unitExponent_double_le k),
    onGrid_of_unit (by decide) hleast hx hm le_rfl]

/-- What lies as far from a single, on the other side of it, as something that is read as the single
is read as it, too, unless the single is a power of two. -/
theorem throughDouble_reflect (hq : single.Holds q) (hlow : pow2 k < q) (hhigh : q < pow2 (k + 1))
    (hx : 0 ≤ x) (h : throughDouble x = q) : 0 ≤ 2 * q - x ∧ throughDouble (2 * q - x) = q := by
  obtain ⟨⟨m, hm⟩, hleast⟩ := hq.multiple hlow.le hhigh
  have hdouble : double.leastExponent ≤ k := le_trans (by decide) hleast
  have hunit := pow2_pos (single.unitExponent k)
  have hpos := pow2_pos k
  obtain ⟨a, ha⟩ := pow2_multiple (unitExponent_le (f := single) (by decide) hleast)
  obtain ⟨b, hb⟩ := pow2_multiple (g := single.unitExponent k) (e := k + 1)
    (by have := unitExponent_le (f := single) (by decide) hleast; omega)
  have hbelow := add_unit_le ha hm hlow
  have habove := add_unit_le hm hb hhigh
  -- The neighbours of the single are not read as it, so the number lies between them.
  have hleft : q - pow2 (single.unitExponent k) < x := by
    refine lt_of_lt_throughDouble hx (throughDouble_of_multiple (m := m - 1) hleast
      ⟨by linarith, by linarith⟩ ?_) (by linarith)
    rw [hm]
    push_cast
    ring
  have hright : x < q + pow2 (single.unitExponent k) := by
    refine lt_of_throughDouble_lt (by linarith) (throughDouble_of_multiple (m := m + 1) hleast
      ⟨by linarith, by linarith⟩ ?_) (by linarith)
    rw [hm]
    push_cast
    ring
  have hx : pow2 k ≤ x ∧ x ≤ pow2 (k + 1) := ⟨by linarith, by linarith⟩
  have hx' : pow2 k ≤ 2 * q - x ∧ 2 * q - x ≤ pow2 (k + 1) := ⟨by linarith, by linarith⟩
  obtain ⟨m', hm'⟩ := exists_eq_mul_pow2 hm (unitExponent_double_le k)
  have hreflected := onGrid_reflect (by decide) hdouble hm' hx hx'
  have hy := onGrid_between (f := double) (by decide) hdouble hx
  have hy' := onGrid_between (f := double) (by decide) hdouble hx'
  rw [hreflected] at hy'
  refine ⟨by linarith, ?_⟩
  rw [throughDouble, hreflected, onGrid_reflect (by decide) hleast hm hy hy', ← throughDouble, h]
  ring

/-- What is nearer to a single than something that is read as it is read as it, too, unless the
single is a power of two. -/
theorem throughDouble_of_nearer (hq : single.Holds q) (hlow : pow2 k < q) (hhigh : q < pow2 (k + 1))
    (hx : 0 ≤ x) (h : throughDouble x = q) (hy : |y - q| ≤ |x - q|) : throughDouble y = q := by
  have hpos : 0 ≤ q := (pow2_pos k).le.trans hlow.le
  obtain ⟨hx', h'⟩ := throughDouble_reflect hq hlow hhigh hx h
  obtain ⟨hleft, hright⟩ := abs_le.mp hy
  rcases le_total x q with hside | hside
  · rw [abs_of_nonpos (by linarith)] at hleft hright
    rcases le_total y q with hside' | hside'
    · exact throughDouble_of_between hq hx hpos h (.inl ⟨by linarith, hside'⟩)
    · exact throughDouble_of_between hq hx' hpos h' (.inr ⟨hside', by linarith⟩)
  · rw [abs_of_nonneg (by linarith)] at hleft hright
    rcases le_total y q with hside' | hside'
    · exact throughDouble_of_between hq hx' hpos h' (.inl ⟨by linarith, hside'⟩)
    · exact throughDouble_of_between hq hx hpos h (.inr ⟨hside', by linarith⟩)

/-! ### Decimals -/

private theorem toSingle_round_neg (h : (double.round x).toSingle = .finite q) :
    (double.round (-x)).toSingle = .finite (-q) := by
  cases hround : double.round x with
  | nan | infinite | zero => simp [hround, toSingle, narrow] at h
  | finite y =>
    rw [hround] at h
    rw [round_neg hround]
    exact round_neg h

/-- A decimal is read as a single if it has the sign of the single and the two roundings bring its
value to the magnitude of the single. -/
theorem toSingle_toFloating_iff {d : Decimal} (hq : single.Holds q) (negative : Bool) :
    (d.toFloating .double negative).toSingle = .finite q ↔
      d.coefficient ≠ 0 ∧ negative = decide (q < 0) ∧ throughDouble d.toRat = magnitude q := by
  by_cases hd : d.coefficient = 0
  · have hzero : d.toFloating .double negative = .zero negative := if_pos hd
    simp [hzero, toSingle, narrow, hd]
  have hnonneg : 0 ≤ throughDouble d.toRat :=
    onGrid_nonneg _ (onGrid_nonneg _ (Decimal.toRat_pos hd).le)
  have hpositive := toSingle_round_eq_iff (x := d.toRat) hq
  have hnegative := toSingle_round_eq_iff (x := d.toRat) hq.neg
  have hmagnitude := magnitude_eq_abs q
  rw [Decimal.toFloating_eq_round hd]
  constructor
  · intro h
    refine ⟨hd, ?_⟩
    cases negative with
    | false =>
      have hread := hpositive.mp h
      have hsign : ¬ q < 0 := by rw [← hread]; exact not_lt.mpr hnonneg
      exact ⟨by simpa using hsign, by rw [hread, hmagnitude, abs_of_nonneg (not_lt.mp hsign)]⟩
    | true =>
      -- A minus sign is dealt with by reading the opposite number.
      have hflipped := toSingle_round_neg h
      rw [if_pos rfl, neg_neg] at hflipped
      have hread := hnegative.mp hflipped
      have hsign : q < 0 := lt_of_le_of_ne (by linarith) hq.nonzero
      exact ⟨by simpa using hsign, by rw [hread, hmagnitude, abs_of_neg hsign]⟩
  · rintro ⟨-, rfl, hread⟩
    by_cases hsign : q < 0
    · rw [hmagnitude, abs_of_neg hsign] at hread
      have hflipped := toSingle_round_neg (hnegative.mpr hread)
      rw [neg_neg] at hflipped
      simpa [hsign] using hflipped
    · rw [hmagnitude, abs_of_nonneg (not_lt.mp hsign)] at hread
      simpa [hsign] using hpositive.mpr hread

theorem readsBack_iff {d : Decimal} (hq : single.Holds q) (hpos : 0 < q) :
    readsBack q d = true ↔ d.coefficient ≠ 0 ∧ throughDouble d.toRat = q := by
  have hiff := toSingle_toFloating_iff (d := d) hq false
  rw [magnitude_eq_abs, abs_of_pos hpos] at hiff
  rw [readsBack, beq_iff_eq, hiff]
  simp [hpos.le]

/-- Nine digits come so near to a single that they are read as it. -/
theorem readsBack_nearest_nine (hq : single.Holds q) (hpos : 0 < q) :
    readsBack q (Decimal.nearest 9 q) = true :=
  (readsBack_iff hq hpos).mpr ⟨(Decimal.coefficient_nearest hpos 8).2,
    throughDouble_of_near hq hpos (Decimal.nearest_near hpos 8)⟩

end Floating

end DialogScript
