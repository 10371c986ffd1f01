import DialogScript.Proofs.Numbers.Display

/-!
# Displayed floats are short

The search for the digits of a float tries one decimal for each number of digits, the nearest one.
Another decimal with so few digits can be read as the float only if the next multiple of the unit of
its last digit, below the float or above it, is (`Decimal.toRat_outside`). So nothing shorter than
the decimal found reads back if the nearer one of these two multiples reads back whenever the other
one does (`Floating.PrefersNearer`).

It does where the numbers read as a float lie symmetrically around it, which is so for all floats
but the powers of two (`Floating.prefersNearer_of_between`). The numbers read as a power of two
reach twice as far up as down. Only one power of ten matters there, and what its multiples next to
the power of two are is computed for each of them (`Floating.clearAt_table`). Three powers of two
have a shorter decimal, which is not the nearest one of its length (`Floating.exists_shorter`).
-/

namespace DialogScript

open Format

/-! ### Multiples of a unit -/

namespace Floating

variable {q u : Rat}

/-- The greatest multiple of a unit that is not above a number. -/
def multipleBelow (q u : Rat) : Rat := (q / u).floor * u

private theorem multipleBelow_le (hu : 0 < u) : multipleBelow q u ≤ q :=
  (le_div_iff₀ hu).mp (Rat.floor_le _)

private theorem lt_multipleBelow_add (hu : 0 < u) : q < multipleBelow q u + u := by
  have hless := (div_lt_iff₀ hu).mp (Rat.lt_floor_add_one (q / u))
  push_cast at hless
  rwa [add_mul, one_mul] at hless

private theorem multipleBelow_nonneg (hq : 0 < q) (hu : 0 < u) : 0 ≤ multipleBelow q u := by
  have hfloor : 0 ≤ (q / u).floor := Rat.le_floor_iff.mpr (by simpa using (div_pos hq hu).le)
  exact mul_nonneg (by exact_mod_cast hfloor) hu.le

end Floating

namespace Decimal

open Floating Numeral

variable {q : Rat} {d : Decimal}

/-- The nearest decimal is the multiple of the unit of its last digit on that side of the number
where the next one is nearer. -/
theorem toRat_nearest_cases (hq : 0 < q) (n : Nat) :
    let u := pow10 (lastExponent (n + 1) q)
    ((nearest (n + 1) q).toRat = multipleBelow q u ∧ 2 * (q - multipleBelow q u) ≤ u) ∨
      ((nearest (n + 1) q).toRat = multipleBelow q u + u ∧ u ≤ 2 * (q - multipleBelow q u)) := by
  intro u
  have hu : 0 < u := pow10_pos _
  have hvalue : (nearest (n + 1) q).toRat = nearestEven (q / u) * u := by
    rw [← (coefficient_nearest hq n).1, Int.cast_natCast]
    rfl
  have hrest : q - multipleBelow q u = (q / u - (q / u).floor) * u := by
    rw [multipleBelow, sub_mul, div_mul_cancel₀ q hu.ne']
  rw [hvalue, hrest]
  rcases nearestEven_cases (q / u) with ⟨heq, hle⟩ | ⟨heq, hle⟩
  · have := mul_le_mul_of_nonneg_right hle hu.le
    exact .inl ⟨by rw [heq]; rfl, by linarith⟩
  · have := mul_le_mul_of_nonneg_right hle hu.le
    refine .inr ⟨?_, by linarith⟩
    rw [heq, multipleBelow]
    push_cast
    ring

/-- No decimal with so few digits lies between the multiples of the unit next to a number. -/
theorem toRat_outside (hq : 0 < q) (hd : d.coefficient ≠ 0) {n : Nat}
    (hn : d.significantDigits.length ≤ n + 1) :
    let u := pow10 (lastExponent (n + 1) q)
    d.toRat ≤ multipleBelow q u ∨ multipleBelow q u + u ≤ d.toRat := by
  intro u
  have hu : 0 < u := pow10_pos _
  by_contra hinside
  obtain ⟨hlow, hhigh⟩ := not_or.mp hinside
  rw [not_le] at hlow hhigh
  obtain ⟨hfirst, -⟩ := digits_between hq n
  have hlog : (n : Int) + lastExponent (n + 1) q = floorLog10 q := by
    unfold lastExponent
    push_cast
    ring
  -- The leading digit of the decimal stands no lower than that of the number.
  have hlead : floorLog10 q ≤ d.leadExponent := by
    have hmany : (10 ^ n : Int) ≤ (q / u).floor := by
      rw [Rat.le_floor_iff, le_div_iff₀ hu]
      exact_mod_cast hfirst
    have hpower : pow10 (floorLog10 q) ≤ multipleBelow q u := by
      rw [← hlog, pow10_add, pow10_natCast]
      exact mul_le_mul_of_nonneg_right (by exact_mod_cast hmany) hu.le
    by_contra hless
    have hbeyond : pow10 (digitCount d.coefficient + d.exponent) ≤ pow10 (floorLog10 q) := by
      rw [pow10_le_pow10]
      unfold leadExponent at hless
      omega
    linarith [(toRat_between hd).2]
  -- So it is a multiple of the unit itself.
  obtain ⟨j, hj⟩ : ∃ j : Int, d.toRat = j * u := by
    obtain ⟨t, ht⟩ := Int.le.dest (show lastExponent (n + 1) q
      ≤ d.leadExponent - d.significantDigits.length + 1 by omega)
    refine ⟨value d.significantDigits * 10 ^ t, ?_⟩
    rw [d.toRat_eq, ← ht, add_comm, pow10_add, pow10_natCast]
    push_cast
    ring
  rw [hj] at hlow hhigh
  have hless : (q / u).floor < j := by exact_mod_cast lt_of_mul_lt_mul_right hlow hu.le
  have hmore : (j : Rat) < (q / u).floor + 1 :=
    lt_of_mul_lt_mul_right (by rwa [add_mul, one_mul]) hu.le
  have : j < (q / u).floor + 1 := by exact_mod_cast hmore
  omega

/-! ### Lengths -/

private theorem significantDigits_ten_mul {m : Nat} (hm : 0 < m) (e e' : Int) :
    significantDigits ⟨m * 10, e⟩ = significantDigits ⟨m, e'⟩ := by
  have hdigits : digits (m * 10) = digits m ++ ['0'] := by
    rw [digits, Nat.toDigits_of_base_le (by decide) (by omega), Nat.mul_div_cancel m (by decide),
      Nat.mul_mod_left]
    rfl
  simp [significantDigits, hdigits]

private theorem length_significantDigits_le_digitCount (d : Decimal) :
    d.significantDigits.length ≤ digitCount d.coefficient := by
  obtain ⟨n, hn⟩ := digits_eq_append d
  rw [digitCount, hn, List.length_append]
  omega

private theorem length_significantDigits_le {n : Nat} (h : d.coefficient ≤ 10 ^ (n + 1)) :
    d.significantDigits.length ≤ n + 1 := by
  have hcount : ∀ {m : Nat}, m < 10 ^ (n + 1) → digitCount m ≤ n + 1 := fun hm =>
    (Nat.length_toDigits_le_iff (by decide) (by omega)).mpr hm
  rcases h.lt_or_eq with hless | heq
  · exact (length_significantDigits_le_digitCount d).trans (hcount hless)
  · -- A power of ten has one digit that is no zero.
    obtain ⟨coefficient, e⟩ := d
    obtain rfl : coefficient = 10 ^ n * 10 := heq
    rw [significantDigits_ten_mul (by positivity) e e]
    refine (length_significantDigits_le_digitCount _).trans (hcount ?_)
    exact Nat.pow_lt_pow_right (by decide) (by omega)

private theorem length_nearest_le (hq : 0 < q) (n : Nat) :
    (nearest (n + 1) q).significantDigits.length ≤ n + 1 := by
  refine length_significantDigits_le ?_
  have hmany : nearestEven (q / pow10 (lastExponent (n + 1) q)) ≤ (10 ^ (n + 1) : Nat) := by
    refine nearestEven_le ?_
    rw [div_le_iff₀ (pow10_pos _)]
    push_cast
    exact (digits_between hq n).2.le
  rw [← (coefficient_nearest hq n).1] at hmany
  exact_mod_cast hmany

end Decimal

namespace Floating

open Decimal

variable {q u : Rat} {k : Int}

/-! ### The nearer multiple -/

/-- Of the two multiples of a unit next to a number, the nearer one is read as the number if the
other one is. -/
structure PrefersNearer (q u : Rat) : Prop where
  below : 2 * (q - multipleBelow q u) ≤ u → throughDouble (multipleBelow q u + u) = q →
    throughDouble (multipleBelow q u) = q
  above : u ≤ 2 * (q - multipleBelow q u) → throughDouble (multipleBelow q u) = q →
    throughDouble (multipleBelow q u + u) = q

/-- Where the nearer multiple is preferred, the nearest decimal of a length reads back if any
decimal of at most this length does. -/
theorem PrefersNearer.readsBack_nearest {n : Nat}
    (h : PrefersNearer q (pow10 (lastExponent (n + 1) q))) (hq : single.Holds q) (hpos : 0 < q)
    {d : Decimal} (hd : readsBack q d = true) (hn : d.significantDigits.length ≤ n + 1) :
    readsBack q (nearest (n + 1) q) = true := by
  obtain ⟨hne, hround⟩ := (readsBack_iff hq hpos).mp hd
  have hu : 0 < pow10 (lastExponent (n + 1) q) := pow10_pos _
  have hbelow := multipleBelow_le (q := q) hu
  have habove := lt_multipleBelow_add (q := q) hu
  have hneighbour :
      throughDouble (multipleBelow q (pow10 (lastExponent (n + 1) q))) = q ∨
      throughDouble (multipleBelow q (pow10 (lastExponent (n + 1) q))
        + pow10 (lastExponent (n + 1) q)) = q := by
    rcases toRat_outside hpos hne hn with hlow | hhigh
    · exact .inl (throughDouble_of_between hq (toRat_pos hne).le hpos.le hround
        (.inl ⟨hlow, hbelow⟩))
    · exact .inr (throughDouble_of_between hq (toRat_pos hne).le hpos.le hround
        (.inr ⟨habove.le, hhigh⟩))
  refine (readsBack_iff hq hpos).mpr ⟨(coefficient_nearest hpos n).2, ?_⟩
  rcases toRat_nearest_cases hpos n with ⟨hvalue, hnearer⟩ | ⟨hvalue, hnearer⟩
  · rw [hvalue]
    exact hneighbour.elim id (h.below hnearer)
  · rw [hvalue]
    exact hneighbour.elim (h.above hnearer) id

/-- Nothing shorter than the decimal that is shown reads back. -/
theorem length_displayDecimal_le (hq : single.Holds q) (hpos : 0 < q)
    (h : ∀ t, PrefersNearer q (pow10 t)) {d : Decimal} (hd : readsBack q d = true) :
    (displayDecimal q 8 1).significantDigits.length ≤ d.significantDigits.length := by
  obtain ⟨count, hone, -, hdecimal, -, hbefore⟩ :=
    displayDecimal_spec hq hpos (show 8 + 1 = 9 from rfl)
  obtain ⟨n, rfl⟩ := Nat.exists_eq_add_of_le' hone
  have hne := (isSignificant ((readsBack_iff hq hpos).mp hd).1).digits.1
  obtain ⟨m, hm⟩ := Nat.exists_eq_add_of_le' (List.length_pos_iff.mpr hne)
  rw [hdecimal]
  refine (length_nearest_le hpos n).trans ?_
  -- Otherwise the search would have ended at the length of the other decimal.
  by_contra hless
  have hreads := (h _).readsBack_nearest hq hpos hd hm.le
  rw [hbefore (m + 1) (by omega) (by omega)] at hreads
  exact absurd hreads (by decide)

/-- The nearer multiple is preferred around a float that is no power of two. -/
theorem prefersNearer_of_between (hq : single.Holds q) (hlow : pow2 k < q)
    (hhigh : q < pow2 (k + 1)) (hu : 0 < u) : PrefersNearer q u := by
  have hpos : 0 < q := (pow2_pos k).trans hlow
  have hbelow := multipleBelow_le (q := q) hu
  have habove := lt_multipleBelow_add (q := q) hu
  have hnonneg := multipleBelow_nonneg hpos hu
  have hleft : |multipleBelow q u - q| = q - multipleBelow q u := by
    rw [abs_of_nonpos (by linarith)]
    ring
  have hright : |multipleBelow q u + u - q| = multipleBelow q u + u - q :=
    abs_of_nonneg (by linarith)
  constructor
  · intro hnearer hread
    refine throughDouble_of_nearer hq hlow hhigh (by linarith) hread ?_
    rw [hleft, hright]
    linarith
  · intro hnearer hread
    refine throughDouble_of_nearer hq hlow hhigh hnonneg hread ?_
    rw [hleft, hright]
    linarith

/-! ### Powers of two -/

/-- What is less far from a single than this is read as it, where the grids are those right above a
power of two. -/
def sureWidth (k : Int) : Rat := (pow2 (single.unitExponent k) - pow2 (double.unitExponent k)) / 2

/-- What is farther from a single than this is not read as it, where the grids are those right above
a power of two. -/
def greatestWidth (k : Int) : Rat :=
  (pow2 (single.unitExponent k) + pow2 (double.unitExponent k)) / 2

private theorem greatestWidth_pos (k : Int) : 0 < greatestWidth k :=
  half_pos (add_pos (pow2_pos _) (pow2_pos _))

private theorem sureWidth_le {e : Int} (h : single.unitExponent k ≤ e + 1) :
    sureWidth k ≤ pow2 e := by
  have hunit : pow2 (single.unitExponent k) ≤ 2 * pow2 e := by
    rw [← pow2_add_one]
    exact pow2_le_pow2.mpr h
  have := pow2_pos (double.unitExponent k)
  unfold sureWidth
  linarith

variable {x : Rat}

private theorem throughDouble_of_sureWidth_below (hleast : -149 ≤ k) (hx : x ≤ pow2 k)
    (hnear : pow2 k - x < sureWidth (k - 1)) : throughDouble x = pow2 k := by
  rcases hx.lt_or_eq with hless | rfl
  · have hexponent : single.unitExponent (k - 1) ≤ k := by
      rw [unitExponent_single]
      omega
    obtain ⟨m, hm⟩ := pow2_multiple hexponent
    have hwidth : sureWidth (k - 1) ≤ pow2 (k - 1) := sureWidth_le (by omega)
    have hhalf := pow2_sub_one k
    refine throughDouble_of_close (k := k - 1) ?_ ⟨by linarith, by rwa [sub_add_cancel]⟩ hm ?_
    · rwa [sub_add_cancel]
    · rwa [abs_sub_comm, abs_of_pos (by linarith)]
  · exact throughDouble_pow2 hleast

private theorem throughDouble_of_sureWidth_above (hleast : -149 ≤ k) (hx : pow2 k ≤ x)
    (hnear : x - pow2 k < sureWidth k) : throughDouble x = pow2 k := by
  have hexponent : single.unitExponent k ≤ k := by
    rw [unitExponent_single]
    omega
  obtain ⟨m, hm⟩ := pow2_multiple hexponent
  have hwidth : sureWidth k ≤ pow2 k := sureWidth_le (by omega)
  have hdouble := pow2_add_one k
  refine throughDouble_of_close ?_ ⟨hx, by linarith⟩ hm ?_
  · exact le_trans hleast (by omega)
  · rwa [abs_of_nonneg (by linarith)]

private theorem sub_le_greatestWidth (hleast : -149 ≤ k) (hnonneg : 0 ≤ x) (hx : x ≤ pow2 k)
    (hread : throughDouble x = pow2 k) : pow2 k - x ≤ greatestWidth (k - 1) := by
  rcases hnonneg.eq_or_lt with rfl | hpos
  · rw [throughDouble, onGrid_zero, onGrid_zero] at hread
    exact absurd hread (pow2_pos k).ne
  rcases hx.lt_or_eq with hless | rfl
  · have herror := abs_throughDouble_sub_le (k := k - 1) (by rwa [sub_add_cancel]) hpos
      (by rwa [sub_add_cancel])
    rw [hread] at herror
    exact (abs_le.mp herror).2
  · rw [sub_self]
    exact (greatestWidth_pos _).le

private theorem le_greatestWidth (hleast : -149 ≤ k) (hx : pow2 k ≤ x)
    (hread : throughDouble x = pow2 k) :
    x - pow2 k ≤ greatestWidth k := by
  have hpos := pow2_pos k
  have hnext : single.leastExponent ≤ k + 1 := le_trans hleast (by omega)
  have hless : x < pow2 (k + 1) := by
    refine lt_of_throughDouble_lt (pow2_pos _).le (throughDouble_pow2 hnext) ?_
    rw [hread, pow2_lt_pow2]
    omega
  have herror := abs_throughDouble_sub_le hnext (hpos.trans_le hx) hless
  rw [hread, abs_sub_comm] at herror
  exact (abs_le.mp herror).2

/-- It is clear for the multiples of a unit next to a power of two that the nearer one is read as it
if the other one is: the one is near enough, or the other one is too far away. -/
@[mk_iff]
structure ClearAt (k : Int) (u : Rat) : Prop where
  below : 2 * (pow2 k - multipleBelow (pow2 k) u) ≤ u →
    pow2 k - multipleBelow (pow2 k) u < sureWidth (k - 1) ∨
      greatestWidth k < multipleBelow (pow2 k) u + u - pow2 k
  above : u ≤ 2 * (pow2 k - multipleBelow (pow2 k) u) →
    multipleBelow (pow2 k) u + u - pow2 k < sureWidth k ∨
      greatestWidth (k - 1) < pow2 k - multipleBelow (pow2 k) u

instance (k : Int) (u : Rat) : Decidable (ClearAt k u) :=
  decidable_of_iff _ (clearAt_iff k u).symm

private theorem ClearAt.prefersNearer (h : ClearAt k u) (hleast : -149 ≤ k) (hu : 0 < u) :
    PrefersNearer (pow2 k) u := by
  have hbelow := multipleBelow_le (q := pow2 k) hu
  have habove := lt_multipleBelow_add (q := pow2 k) hu
  constructor
  · intro hnearer hread
    rcases h.below hnearer with hnear | hfar
    · exact throughDouble_of_sureWidth_below hleast hbelow hnear
    · exact absurd (le_greatestWidth hleast habove.le hread) (not_le.mpr hfar)
  · intro hnearer hread
    rcases h.above hnearer with hnear | hfar
    · exact throughDouble_of_sureWidth_above hleast habove.le hnear
    · refine absurd (sub_le_greatestWidth hleast ?_ hbelow hread) (not_le.mpr hfar)
      exact multipleBelow_nonneg (pow2_pos k) hu

/-- A unit is so small that the nearer one of its multiples is always read as a power of two. -/
def SmallAt (k : Int) (u : Rat) : Prop := u < 2 * sureWidth (k - 1) ∧ u < 2 * sureWidth k
  deriving Decidable

/-- A unit is so large that only one of its multiples can be read as a power of two. -/
def LargeAt (k : Int) (u : Rat) : Prop := 2 * greatestWidth (k - 1) < u ∧ 2 * greatestWidth k < u
  deriving Decidable

private theorem SmallAt.clearAt (h : SmallAt k u) : ClearAt k u :=
  ⟨fun _ => .inl (by linarith [h.1]), fun _ => .inl (by linarith [h.2])⟩

private theorem LargeAt.clearAt (h : LargeAt k u) : ClearAt k u :=
  ⟨fun _ => .inr (by linarith [h.2]), fun _ => .inr (by linarith [h.1])⟩

/-- The exponent of the power of ten next to the unit of singles above a power of two, the only one
that is neither small nor large there. -/
def criticalExponent (k : Int) : Int := max (-149) (k - 23) * 30103 / 100000

/-- The powers of two among the singles one by one. -/
theorem clearAt_table : ∀ i : Nat, i < 277 → (i : Int) - 149 ∈ [-96, 87, 90] ∨
    (ClearAt (i - 149) (pow10 (criticalExponent (i - 149))) ∧
      SmallAt (i - 149) (pow10 (criticalExponent (i - 149) - 1)) ∧
      LargeAt (i - 149) (pow10 (criticalExponent (i - 149) + 1))) := by
  decide +kernel

private theorem prefersNearer_pow2 (hleast : -149 ≤ k) (hgreatest : k < 128)
    (hk : k ∉ [-96, 87, 90])
    (t : Int) : PrefersNearer (pow2 k) (pow10 t) := by
  have htable := clearAt_table (k + 149).toNat (by omega)
  rw [show ((k + 149).toNat : Int) - 149 = k by omega] at htable
  obtain ⟨hcritical, hsmall, hlarge⟩ := htable.resolve_left hk
  refine ClearAt.prefersNearer ?_ hleast (pow10_pos t)
  -- The lower powers of ten are small, the higher ones are large.
  rcases lt_trichotomy t (criticalExponent k) with hless | rfl | hmore
  · have hle : pow10 t ≤ pow10 (criticalExponent k - 1) := pow10_le_pow10.mpr (by omega)
    exact SmallAt.clearAt ⟨hle.trans_lt hsmall.1, hle.trans_lt hsmall.2⟩
  · exact hcritical
  · have hle : pow10 (criticalExponent k + 1) ≤ pow10 t := pow10_le_pow10.mpr (by omega)
    exact LargeAt.clearAt ⟨hlarge.1.trans_le hle, hlarge.2.trans_le hle⟩

/-- The decimals that are found for three powers of two are not the shortest ones that read back. -/
theorem exists_shorter : ∀ k ∈ [-96, 87, 90], ∃ d : Decimal, readsBack (pow2 k) d = true ∧
    d.significantDigits.length < (displayDecimal (pow2 k) 8 1).significantDigits.length := by
  simp only [List.forall_mem_cons]
  refine ⟨⟨⟨12621775, -36⟩, ?_⟩, ⟨⟨15474251, 19⟩, ?_⟩, ⟨⟨12379401, 20⟩, ?_⟩, by simp⟩ <;>
    decide +kernel

/-! ### The shown decimal -/

private theorem exists_between (hq : single.Holds q) (hpos : 0 < q) :
    ∃ k : Int, -149 ≤ k ∧ k < 128 ∧ (q = pow2 k ∨ (pow2 k < q ∧ q < pow2 (k + 1))) := by
  obtain ⟨hlow, hhigh⟩ := floorLog2_spec hpos
  refine ⟨floorLog2 q, (hq.multiple hlow hhigh).2, ?_, ?_⟩
  · have hbelow := hq.below
    rw [abs_of_pos hpos] at hbelow
    exact floorLog2_lt hpos hbelow
  · rcases hlow.eq_or_lt with heq | hless
    · exact .inl heq.symm
    · exact .inr ⟨hless, hhigh⟩

/-- Every decimal that is read as a finite single other than zero, through double precision, has at
least as many digits as are shown of the single, unless the magnitude of the single is one of three
powers of two: these have a shorter decimal. -/
theorem display_shortest_iff (h : (finite q).IsSingle) :
    (∀ (d : Decimal) (negative : Bool), (d.toFloating .double negative).toSingle = .finite q →
      (shownDigits (display (.finite q)).toList).length ≤ d.significantDigits.length) ↔
    ∀ k ∈ [-96, 87, 90], magnitude q ≠ pow2 k := by
  have hq := h.holds_single
  have hpos := hq.magnitude_pos
  have hread : ∀ (d : Decimal) (negative : Bool),
      (d.toFloating .double negative).toSingle = .finite q ↔
        negative = decide (q < 0) ∧ readsBack (magnitude q) d = true := by
    intro d negative
    rw [toSingle_toFloating_iff hq, readsBack_iff hq.magnitude hpos]
    tauto
  rw [shownDigits_display hq]
  constructor
  · intro hall k hk heq
    obtain ⟨d, hreads, hshorter⟩ := exists_shorter k hk
    rw [← heq] at hreads hshorter
    exact absurd (hall d _ ((hread d _).mpr ⟨rfl, hreads⟩)) (not_le.mpr hshorter)
  · intro hother d negative hd
    refine length_displayDecimal_le hq.magnitude hpos (fun t => ?_) ((hread d negative).mp hd).2
    obtain ⟨k, hleast, hgreatest, heq | ⟨hlow, hhigh⟩⟩ := exists_between hq.magnitude hpos
    · rw [heq]
      exact prefersNearer_pow2 hleast hgreatest (fun hk => hother k hk heq) t
    · exact prefersNearer_of_between hq.magnitude hlow hhigh (pow10_pos t)

/-- The least single above a power of two is shown with the eight digits that it needs. -/
theorem display_shortest_after_pow2 :
    let x : Floating := .finite 16777218
    x.IsSingle ∧ x.display = "1.6777218E+07" ∧
      ∀ (d : Decimal) (negative : Bool), (d.toFloating .double negative).toSingle = x →
        8 ≤ d.significantDigits.length := by
  intro x
  have hx : x.IsSingle := by
    change x.toSingle = x
    decide +kernel
  have htext : x.display = "1.6777218E+07" := by decide +kernel
  have hother : ∀ k ∈ [-96, 87, 90], magnitude 16777218 ≠ pow2 k := by decide +kernel
  refine ⟨hx, htext, fun d negative hd => ?_⟩
  have hlength := (display_shortest_iff hx).mpr hother d negative hd
  rw [htext] at hlength
  exact hlength

/-- Of `2 ^ 90` nine digits are shown, and eight digits are read as it, which are not the nearest
eight. -/
theorem display_pow2_ninety :
    let x : Floating := .finite (2 ^ 90)
    let d : Decimal := ⟨12379401, 20⟩
    x.IsSingle ∧ x.display = "1.23794004E+27" ∧ (shownDigits x.display.toList).length = 9 ∧
      (d.toFloating .double false).toSingle = x ∧ d.significantDigits.length = 8 := by
  intro x d
  have htext : x.display = "1.23794004E+27" := by decide +kernel
  refine ⟨?_, htext, ?_, ?_, by decide +kernel⟩
  · change x.toSingle = x
    decide +kernel
  · rw [htext]
    decide
  · decide +kernel

end Floating

end DialogScript
