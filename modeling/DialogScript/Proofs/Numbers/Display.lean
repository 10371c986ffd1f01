import DialogScript.Number.Numeral
import DialogScript.Proofs.Numbers.Layouts
import DialogScript.Proofs.Numbers.TwoRoundings

/-!
# Displayed floats read back

The text that a script shows for a finite float is read as the same float, with its sign
(`Floating.readReal?_display`). The search for its digits ends with a decimal that reads back, since
one with nine digits does (`Floating.displayDecimal_spec`), and both forms of its text are read as a
decimal of the same value (`Floating.readReal?_write`).
-/

namespace DialogScript

open Text Numeral

namespace Floating

/-! ### The search for the digits -/

/-- The search ends at the first number of digits whose nearest decimal reads back. -/
theorem displayDecimal_spec {q : Rat} (hq : Format.single.Holds q) (hpos : 0 < q)
    {fuel count : Nat} (hcount : fuel + count = 9) :
    ∃ n, count ≤ n ∧ n ≤ 9 ∧ displayDecimal q fuel count = Decimal.nearest n q ∧
      readsBack q (Decimal.nearest n q) = true ∧
      ∀ m, count ≤ m → m < n → readsBack q (Decimal.nearest m q) = false := by
  induction fuel generalizing count with
  | zero =>
    obtain rfl : count = 9 := by omega
    exact ⟨9, le_rfl, le_rfl, rfl, readsBack_nearest_nine hq hpos, fun m _ _ => by omega⟩
  | succ fuel ih =>
    have hnext : fuel + (count + 1) = 9 := by omega
    rw [displayDecimal]
    split
    · rename_i hread
      exact ⟨count, le_rfl, by omega, rfl, hread, fun m _ _ => by omega⟩
    · rename_i hread
      obtain ⟨n, hn, hnine, hdecimal, hreads, hbefore⟩ := ih hnext
      refine ⟨n, by omega, hnine, hdecimal, hreads, fun m hm hless => ?_⟩
      rcases hm.eq_or_lt with rfl | hm
      · simpa using hread
      · exact hbefore m hm hless

/-! ### Reading the text -/

private theorem marks_displayLayout : displayLayout.Marks 'E' 0 := ⟨by decide, by decide⟩

/-- The text of a decimal, with a sign or without, is read as a decimal of the same value. -/
theorem readReal?_write {d : Decimal} (hd : d.coefficient ≠ 0) (negative : Bool) :
    ∃ d' : Decimal, d'.toRat = d.toRat ∧
      readReal? ((if negative then "-" else "") ++ displayLayout.write d)
        = some (d'.toFloating .double negative) := by
  have hwrites := Layout.writes_write marks_displayLayout hd
  generalize htext : displayLayout.write d = text at hwrites
  rw [d.toRat_eq]
  generalize hlist : text.toList = cs at hwrites
  cases hwrites with
  | @intro whole fraction exponent before after e hwhole hhead hdigits hexponent hplace hend =>
    have hfraction : ∀ c ∈ fraction, isAsciiDigit c = true := fun c hc =>
      Layout.isAsciiDigit_of_mem (Decimal.isSignificant hd) hdigits (List.mem_append_right whole hc)
    refine ⟨⟨value (whole ++ fraction), e - fraction.length⟩, Layout.value_eq hdigits hplace, ?_⟩
    refine readReal?_of_parts (.inr rfl) ?_ hwhole hfraction hexponent
    cases negative <;> simp [hlist]

private theorem readReal?_display_finite {q : Rat} (hq : Format.single.Holds q) :
    ∃ y, readReal? (display (.finite q)) = some y ∧ y.toSingle = .finite q := by
  have hpos := hq.magnitude_pos
  obtain ⟨n, -, -, hdecimal, hreads, -⟩ :=
    displayDecimal_spec hq.magnitude hpos (show 8 + 1 = 9 from rfl)
  rw [← hdecimal, readsBack_iff hq.magnitude hpos] at hreads
  obtain ⟨hd, hround⟩ := hreads
  obtain ⟨d', hvalue, hread⟩ := readReal?_write hd (decide (q < 0))
  refine ⟨_, by simpa [display] using hread, ?_⟩
  rw [Decimal.toFloating_congr hd hvalue]
  exact (toSingle_toFloating_iff hq _).mpr ⟨hd, rfl, hround⟩

private theorem readReal?_display_zero (negative : Bool) :
    readReal? (display (.zero negative)) = some (.zero negative) := by
  cases negative <;> decide

private theorem exists_readReal?_display {x : Floating} (hx : x.IsSingle)
    (hfinite : x.toRat?.isSome) :
    ∃ y, readReal? x.display = some y ∧ y.toSingle = x := by
  cases x with
  | nan | infinite => simp [toRat?] at hfinite
  | zero negative => exact ⟨_, readReal?_display_zero negative, rfl⟩
  | finite q => exact readReal?_display_finite hx.holds_single

/-- The text that is shown for a finite single, zeros of both signs included, is read as the single,
with its sign. The search for the digits of one that is not zero ends within nine digits with a
decimal that reads back, and no other finite single is shown by the same text. -/
theorem readReal?_display {x : Floating} (hx : x.IsSingle) (hfinite : x.toRat?.isSome) :
    (∃ y, readReal? x.display = some y ∧ y.toSingle = x) ∧
      (∀ q, x = .finite q → ∃ count, 1 ≤ count ∧ count ≤ 9 ∧
        displayDecimal (magnitude q) 8 1 = Decimal.nearest count (magnitude q) ∧
        readsBack (magnitude q) (Decimal.nearest count (magnitude q)) = true) ∧
      ∀ x' : Floating, x'.IsSingle → x'.toRat?.isSome → x'.display = x.display → x' = x := by
  obtain ⟨y, hread, hy⟩ := exists_readReal?_display hx hfinite
  refine ⟨⟨y, hread, hy⟩, ?_, fun x' hx' hfinite' hsame => ?_⟩
  · rintro q rfl
    have hq := hx.holds_single
    have hpos := hq.magnitude_pos
    obtain ⟨count, hone, hnine, hdecimal, hreads, -⟩ :=
      displayDecimal_spec hq.magnitude hpos (show 8 + 1 = 9 from rfl)
    exact ⟨count, hone, hnine, hdecimal, hreads⟩
  · obtain ⟨y', hread', hy'⟩ := exists_readReal?_display hx' hfinite'
    rw [hsame, hread] at hread'
    rw [← hy', ← hy, Option.some.inj hread']

/-- The least single, with a minus sign: its unit is its own size, and one digit of it is shown. -/
theorem readReal?_display_least :
    let x : Floating := .finite (-1 / 2 ^ 149)
    x.IsSingle ∧ x.display = "-1E-45" ∧
      ∃ y, readReal? "-1E-45" = some y ∧ y.toSingle = x := by
  intro x
  have hx : x.IsSingle := by
    change x.toSingle = x
    decide +kernel
  have htext : x.display = "-1E-45" := by decide +kernel
  refine ⟨hx, htext, ?_⟩
  rw [← htext]
  exact (readReal?_display hx rfl).1

/-! ### Shown digits -/

/-- The digits of a number that a text shows, from the first one on that is not zero. Zeros at the
end of a whole number do not count. -/
def shownDigits (text : List Char) : List Char :=
  let mantissa := text.takeWhile (· != 'E')
  let digits := (mantissa.filter isAsciiDigit).dropWhile (· == '0')
  if '.' ∈ mantissa then digits else (digits.reverse.dropWhile (· == '0')).reverse

private theorem dropWhile_zeros (n : Nat) {cs : List Char} (h : ∀ c ∈ cs.head?, c ≠ '0') :
    (List.replicate n '0' ++ cs).dropWhile (· == '0') = cs := by
  rw [List.dropWhile_append_of_pos (by simp)]
  cases cs with
  | nil => rfl
  | cons c cs => simp [h c rfl]

private theorem filter_fractionText {fraction : List Char}
    (h : ∀ c ∈ fraction, isAsciiDigit c = true) :
    (fractionText fraction).filter isAsciiDigit = fraction := by
  cases fraction with
  | nil => rfl
  | cons c cs =>
    rw [fractionText, List.filter_cons_of_neg (by decide)]
    exact List.filter_eq_self.mpr h

private theorem takeWhile_mantissa {sign whole fraction exponent : List Char} {e : Int}
    (hsign : ∀ c ∈ sign, c = '-') (hwhole : ∀ c ∈ whole, isAsciiDigit c = true)
    (hfraction : ∀ c ∈ fraction, isAsciiDigit c = true) (hexponent : IsExponent 'E' exponent e) :
    (sign ++ (whole ++ fractionText fraction ++ exponent)).takeWhile (· != 'E')
      = sign ++ (whole ++ fractionText fraction) := by
  have hdigit : ∀ c, isAsciiDigit c = true → (c != 'E') = true := by
    intro c hc
    rw [bne_iff_ne]
    rintro rfl
    exact absurd hc (by decide)
  rw [← List.append_assoc]
  refine (takeWhile_run (fun c hc => ?_) (fun c hc => ?_)).1
  · rw [List.mem_append, List.mem_append] at hc
    rcases hc with hc | hc | hc
    · rw [hsign c hc]
      decide
    · exact hdigit c (hwhole c hc)
    · rcases mem_fractionText hc with rfl | hc
      · decide
      · exact hdigit c (hfraction c hc)
  · cases hexponent with
    | absent => simp at hc
    | marked =>
      cases hc
      decide

/-- The digits that are shown of a decimal are its significant ones, whatever its form and sign. -/
theorem shownDigits_writes {ds text sign : List Char} {lead : Int}
    (hds : Decimal.IsSignificant ds) (h : Layout.Writes 'E' 0 ds lead text)
    (hsign : ∀ c ∈ sign, c = '-') : shownDigits (sign ++ text) = ds := by
  cases h with
  | @intro whole fraction exponent before after e hwhole hhead hdigits hexponent hplace hend =>
    have hfraction : ∀ c ∈ fraction, isAsciiDigit c = true := fun c hc =>
      Layout.isAsciiDigit_of_mem hds hdigits (List.mem_append_right whole hc)
    have hmantissa := takeWhile_mantissa hsign hwhole.2 hfraction hexponent
    have hfilter : (sign ++ (whole ++ fractionText fraction)).filter isAsciiDigit
        = whole ++ fraction := by
      have hnone : sign.filter isAsciiDigit = [] := by
        refine List.filter_eq_nil_iff.mpr fun c hc => ?_
        rw [hsign c hc]
        decide
      rw [List.filter_append, List.filter_append, hnone, List.filter_eq_self.mpr hwhole.2,
        filter_fractionText hfraction, List.nil_append]
    have hdrop : (whole ++ fraction).dropWhile (· == '0') = ds ++ List.replicate after '0' := by
      rw [hdigits, List.append_assoc]
      refine dropWhile_zeros before ?_
      rw [List.head?_append_of_ne_nil _ hds.digits.1]
      exact hds.head
    simp only [shownDigits, hmantissa, hfilter, hdrop]
    split_ifs with hpoint
    · rcases hend with ⟨rfl, rfl⟩ | ⟨rfl, -⟩
      · -- A whole number has no point.
        rw [List.mem_append, List.mem_append] at hpoint
        rcases hpoint with hpoint | hpoint | hpoint
        · exact absurd (hsign _ hpoint) (by decide)
        · exact absurd (hwhole.2 _ hpoint) (by decide)
        · simp [fractionText] at hpoint
      · exact List.append_nil ds
    · rw [List.reverse_append, List.reverse_replicate, dropWhile_zeros after, List.reverse_reverse]
      rw [List.head?_reverse]
      exact hds.last

/-- The digits that are shown of a single are those of the decimal that the search ends with. -/
theorem shownDigits_display {q : Rat} (hq : Format.single.Holds q) :
    shownDigits (display (.finite q)).toList
      = (displayDecimal (magnitude q) 8 1).significantDigits := by
  have hpos := hq.magnitude_pos
  obtain ⟨n, -, -, hdecimal, hreads, -⟩ :=
    displayDecimal_spec hq.magnitude hpos (show 8 + 1 = 9 from rfl)
  rw [← hdecimal, readsBack_iff hq.magnitude hpos] at hreads
  rw [display, String.toList_append]
  refine shownDigits_writes (Decimal.isSignificant hreads.1)
    (Layout.writes_write marks_displayLayout hreads.1) fun c hc => ?_
  split at hc
  · simpa using hc
  · simp at hc

end Floating

end DialogScript
