import DialogScript.Number.Layout
import DialogScript.Proofs.Numbers.Decimals
import DialogScript.Proofs.Numerals

/-!
# Texts of decimals

Whether a layout writes a decimal positionally or with an exponent, the text is digits, a fraction
and an exponent, and its digits are the significant digits of the decimal with zeros around them
(`Layout.writes_write`). The zeros only move the point, so the text spells the value of the decimal
(`Layout.value_eq`).
-/

namespace DialogScript

open Text Numeral

namespace Decimal

/-! ### Significant digits -/

/-- Leaving out trailing zeros of a text leaves the rest of it. -/
theorem exists_zeros (cs : List Char) :
    ∃ n, cs = (cs.reverse.dropWhile (· == '0')).reverse ++ List.replicate n '0' := by
  have hzeros : cs.reverse.takeWhile (· == '0')
      = List.replicate (cs.reverse.takeWhile (· == '0')).length '0' := by
    refine List.eq_replicate_iff.mpr ⟨rfl, fun c hc => ?_⟩
    simpa using List.all_eq_true.mp List.all_takeWhile c hc
  refine ⟨(cs.reverse.takeWhile (· == '0')).length, ?_⟩
  have hsplit := congrArg List.reverse (List.takeWhile_append_dropWhile (p := (· == '0'))
    (l := cs.reverse))
  rw [List.reverse_append, hzeros, List.reverse_replicate, List.reverse_reverse] at hsplit
  exact hsplit.symm

variable {d : Decimal}

/-- The digits of a decimal are its significant digits and zeros behind them. -/
theorem digits_eq_append (d : Decimal) :
    ∃ n, digits d.coefficient = d.significantDigits ++ List.replicate n '0' :=
  exists_zeros _

/-- The significant digits of a decimal neither start nor end with a zero. -/
structure IsSignificant (cs : List Char) : Prop where
  digits : IsDigits cs
  head : ∀ c ∈ cs.head?, c ≠ '0'
  last : ∀ c ∈ cs.getLast?, c ≠ '0'

theorem isSignificant (hd : d.coefficient ≠ 0) : IsSignificant d.significantDigits := by
  obtain ⟨n, hn⟩ := digits_eq_append d
  have hhead : ∀ c ∈ (digits d.coefficient).head?, c ≠ '0' :=
    head_toDigits (Nat.pos_of_ne_zero hd)
  have hdigits : IsDigits (digits d.coefficient) := isDigits_toDigits _
  have hne : d.significantDigits ≠ [] := by
    intro hnil
    rw [hnil, List.nil_append] at hn
    cases n with
    | zero => exact hdigits.1 hn
    | succ n => exact hhead '0' (by rw [hn]; rfl) rfl
  refine ⟨⟨hne, fun c hc => hdigits.2 c (by rw [hn]; exact List.mem_append_left _ hc)⟩, ?_, ?_⟩
  · intro c hc
    refine hhead c ?_
    rw [hn, List.head?_append_of_ne_nil _ hne]
    exact hc
  · intro c hc
    rw [significantDigits, List.getLast?_reverse] at hc
    have hlast := List.head?_dropWhile_not (· == '0') (digits d.coefficient).reverse
    simpa [Option.mem_def.mp hc] using hlast

/-- The significant digits of a decimal make up its value with the exponent of the last one. -/
theorem toRat_eq (d : Decimal) :
    d.toRat = value d.significantDigits
      * pow10 (d.leadExponent - d.significantDigits.length + 1) := by
  obtain ⟨n, hn⟩ := digits_eq_append d
  have hvalue : d.coefficient = value d.significantDigits * 10 ^ n := by
    have := value_toDigits d.coefficient
    rw [← digits, hn, value_append, value_replicate_zero, List.length_replicate] at this
    rw [← this]
    ring
  have hexponent : d.leadExponent - d.significantDigits.length + 1 = n + d.exponent := by
    rw [leadExponent, digitCount, hn, List.length_append, List.length_replicate]
    push_cast
    ring
  rw [hexponent, pow10_add, pow10_natCast, toRat]
  nth_rewrite 1 [hvalue]
  push_cast
  ring

end Decimal

namespace Layout

open Decimal

/-- The marks of a layout: the one in front of an exponent, and how many zeros follow the point
behind a whole number. -/
structure Marks (layout : Layout) (mark : Char) (zeros : Nat) : Prop where
  exponent : layout.exponentMark.toList = [mark]
  whole : layout.wholeMark.toList = fractionText (List.replicate zeros '0')

/-- A text is made of digits, a fraction and an exponent, and it is a form of the given digits, the
first of which has the exponent `lead`: around them there are only zeros. Zeros behind them fill up
a whole number. -/
inductive Writes (mark : Char) (zeros : Nat) (digits : List Char) (lead : Int) : List Char → Prop
  | intro {whole fraction exponent : List Char} {before after : Nat} {e : Int}
      (hwhole : IsDigits whole) (hhead : whole.head? = some '0' → whole = ['0'])
      (hdigits : whole ++ fraction
        = List.replicate before '0' ++ digits ++ List.replicate after '0')
      (hexponent : IsExponent mark exponent e)
      (hplace : e - fraction.length + after = lead - digits.length + 1)
      (hend : (fraction = List.replicate zeros '0' ∧ exponent = []) ∨
        (after = 0 ∧ fractionText fraction ++ exponent ≠ [])) :
      Writes mark zeros digits lead (whole ++ fractionText fraction ++ exponent)

variable {layout : Layout} {mark : Char} {zeros : Nat} {ds : List Char} {lead : Int}

private theorem head_append (hds : IsSignificant ds) (more : List Char) :
    (ds ++ more).head? = some '0' → ds ++ more = ['0'] := by
  intro hzero
  rw [List.head?_append_of_ne_nil _ hds.digits.1] at hzero
  exact absurd rfl (hds.head _ hzero)

private theorem isDigits_append_zeros (hds : IsSignificant ds) (n : Nat) :
    IsDigits (ds ++ List.replicate n '0') := by
  refine ⟨by simp [hds.digits.1], fun c hc => ?_⟩
  exact (List.mem_append.mp hc).elim (hds.digits.2 c) isAsciiDigit_of_mem_zeros

/-- Digits with zeros between the point and them. -/
theorem writes_zeros_before (hds : IsSignificant ds) (n : Nat) :
    Writes mark zeros ds (-1 - n) ('0' :: '.' :: (List.replicate n '0' ++ ds)) := by
  have hne : List.replicate n '0' ++ ds ≠ [] := by simp [hds.digits.1]
  have hdigits : ['0'] ++ (List.replicate n '0' ++ ds)
      = List.replicate (n + 1) '0' ++ ds ++ List.replicate 0 '0' := by
    simp [List.replicate_succ]
  have hplace : 0 - ((List.replicate n '0' ++ ds).length : Int) + (0 : Nat)
      = -1 - n - ds.length + 1 := by
    simp only [List.length_append, List.length_replicate]
    omega
  have hwrites : Writes mark zeros ds (-1 - n)
      (['0'] ++ fractionText (List.replicate n '0' ++ ds) ++ []) :=
    .intro (isDigits_singleton rfl) (fun _ => rfl) hdigits .absent hplace
      (.inr ⟨rfl, by simp [fractionText_eq_cons hne]⟩)
  rwa [fractionText_eq_cons hne, List.append_nil] at hwrites

/-- Digits with zeros between them and the point, or the end of the text. -/
theorem writes_zeros_after (h : layout.Marks mark zeros) (hds : IsSignificant ds) (n : Nat) :
    Writes mark zeros ds (ds.length + n - 1)
      (ds ++ List.replicate n '0' ++ layout.wholeMark.toList) := by
  have hdigits : ds ++ List.replicate n '0' ++ List.replicate zeros '0'
      = List.replicate 0 '0' ++ ds ++ List.replicate (n + zeros) '0' := by
    rw [List.append_assoc, ← List.replicate_add]
    rfl
  have hplace : 0 - ((List.replicate zeros '0').length : Int) + (n + zeros : Nat)
      = (ds.length + n - 1 : Int) - ds.length + 1 := by
    simp only [List.length_replicate]
    omega
  have hwrites : Writes mark zeros ds (ds.length + n - 1)
      (ds ++ List.replicate n '0' ++ fractionText (List.replicate zeros '0') ++ []) :=
    .intro (isDigits_append_zeros hds n) (head_append hds _) hdigits .absent hplace
      (.inl ⟨rfl, rfl⟩)
  rwa [List.append_nil, ← h.whole] at hwrites

/-- Digits with the point between them. -/
theorem writes_between (hds : IsSignificant ds) {n : Nat} (hn : n + 1 < ds.length) :
    Writes mark zeros ds n (ds.take (n + 1) ++ '.' :: ds.drop (n + 1)) := by
  have hne : ds.drop (n + 1) ≠ [] := by simpa using hn
  have hdigits : ds.take (n + 1) ++ ds.drop (n + 1)
      = List.replicate 0 '0' ++ ds ++ List.replicate 0 '0' := by simp
  have hplace : 0 - ((ds.drop (n + 1)).length : Int) + (0 : Nat) = n - ds.length + 1 := by
    rw [List.length_drop]
    omega
  have hwhole : IsDigits (ds.take (n + 1)) := by
    refine ⟨?_, fun c hc => hds.digits.2 c (List.mem_of_mem_take hc)⟩
    simp [hds.digits.1]
  have hhead : (ds.take (n + 1)).head? = some '0' → ds.take (n + 1) = ['0'] := by
    intro hzero
    rw [List.head?_take, if_neg (by omega)] at hzero
    exact absurd rfl (hds.head _ hzero)
  have hwrites : Writes mark zeros ds n
      (ds.take (n + 1) ++ fractionText (ds.drop (n + 1)) ++ []) :=
    .intro hwhole hhead hdigits .absent hplace (.inr ⟨rfl, by simp [fractionText_eq_cons hne]⟩)
  rwa [fractionText_eq_cons hne, List.append_nil] at hwrites

private theorem writes_positional (h : layout.Marks mark zeros) (hds : IsSignificant ds)
    (lead : Int) :
    Writes mark zeros ds lead (layout.positional ds lead).toList := by
  unfold Layout.positional
  dsimp only
  split_ifs with hnegative hwhole
  · have hwrites : Writes mark zeros ds _ _ := writes_zeros_before hds (-lead - 1).toNat
    have hlead : -1 - ((-lead - 1).toNat : Int) = lead := by omega
    rw [hlead] at hwrites
    simpa using hwrites
  · have hwrites := writes_zeros_after h hds (lead.toNat + 1 - ds.length)
    have hlead : (ds.length + (lead.toNat + 1 - ds.length : Nat) - 1 : Int) = lead := by omega
    rw [hlead] at hwrites
    simpa using hwrites
  · have hwrites : Writes mark zeros ds _ _ := writes_between hds (not_le.mp hwhole)
    have hlead : (lead.toNat : Int) = lead := by omega
    rw [hlead] at hwrites
    simpa using hwrites

/-! ### Exponents -/

private theorem isDigits_twoDigits (n : Nat) :
    IsDigits (Layout.twoDigits n).toList ∧ value (Layout.twoDigits n).toList = n := by
  rw [Layout.twoDigits, String.toList_ofList]
  split_ifs
  · refine ⟨⟨by simp, ?_⟩, ?_⟩
    · exact List.forall_mem_cons.mpr ⟨by decide, (isDigits_toDigits n).2⟩
    · exact value_toDigits n
  · exact ⟨isDigits_toDigits n, value_toDigits n⟩

/-- A sign and at least two digits are an exponent. -/
theorem isExponent_twoDigits (mark : Char) (e : Int) :
    IsExponent mark (mark :: (if decide (e < 0) then '-' else '+') :: (twoDigits e.natAbs).toList)
      e := by
  obtain ⟨hdigits, hvalue⟩ := isDigits_twoDigits e.natAbs
  have hexponent : IsExponent mark _ _ := .marked (decide (e < 0)) hdigits
  rw [hvalue] at hexponent
  convert hexponent using 1
  split_ifs with hnegative
  · have := of_decide_eq_true hnegative
    omega
  · have := not_lt.mp (of_decide_eq_false (Bool.eq_false_of_not_eq_true hnegative))
    omega

private theorem writes_scientific (h : layout.Marks mark zeros) (hds : IsSignificant ds)
    (lead : Int) :
    Writes mark zeros ds lead (layout.scientific ds lead).toList := by
  obtain ⟨c, cs, rfl⟩ := List.exists_cons_of_ne_nil hds.digits.1
  have hdigits : [c] ++ cs = List.replicate 0 '0' ++ c :: cs ++ List.replicate 0 '0' := by simp
  have hplace : lead - (cs.length : Int) + (0 : Nat) = lead - (c :: cs).length + 1 := by
    rw [List.length_cons]
    omega
  have hwhole : IsDigits [c] := isDigits_singleton (hds.digits.2 c (by simp))
  have hhead : [c].head? = some '0' → [c] = ['0'] :=
    fun hzero => absurd (Option.some.inj hzero) (hds.head c rfl)
  have hwrites : Writes mark zeros (c :: cs) lead ([c] ++ fractionText cs ++
      mark :: (if decide (lead < 0) then '-' else '+') :: (twoDigits lead.natAbs).toList) :=
    .intro hwhole hhead hdigits (isExponent_twoDigits mark lead) hplace (.inr ⟨rfl, by simp⟩)
  have htext : (layout.scientific (c :: cs) lead).toList = [c] ++ fractionText cs ++
      mark :: (if decide (lead < 0) then '-' else '+') :: (twoDigits lead.natAbs).toList := by
    cases cs <;> by_cases hnegative : lead < 0 <;>
      simp [Layout.scientific, h.exponent, fractionText, hnegative]
  rwa [htext]

/-- A decimal is written as a text of its significant digits. -/
theorem writes_write (h : layout.Marks mark zeros) {d : Decimal} (hd : d.coefficient ≠ 0) :
    Writes mark zeros d.significantDigits d.leadExponent (layout.write d).toList := by
  rw [Layout.write]
  split
  · exact writes_positional h (isSignificant hd) _
  · exact writes_scientific h (isSignificant hd) _

variable {whole fraction : List Char} {before after : Nat} {e : Int}

theorem isAsciiDigit_of_mem (hds : IsSignificant ds) (hdigits : whole ++ fraction
      = List.replicate before '0' ++ ds ++ List.replicate after '0') {c : Char}
    (hc : c ∈ whole ++ fraction) : isAsciiDigit c = true := by
  rw [hdigits, List.mem_append, List.mem_append] at hc
  rcases hc with (hzero | hc) | hzero
  · exact isAsciiDigit_of_mem_zeros hzero
  · exact hds.digits.2 c hc
  · exact isAsciiDigit_of_mem_zeros hzero

/-- The zeros around the digits only move the point: the text spells the value of the digits. -/
theorem value_eq (hdigits : whole ++ fraction
      = List.replicate before '0' ++ ds ++ List.replicate after '0')
    (hplace : e - fraction.length + after = lead - ds.length + 1) :
    value (whole ++ fraction) * pow10 (e - fraction.length)
      = value ds * pow10 (lead - ds.length + 1) := by
  have hvalue : value (whole ++ fraction) = value ds * 10 ^ after := by
    rw [hdigits, value_append, value_append, value_replicate_zero, value_replicate_zero,
      List.length_replicate]
    ring
  rw [hvalue, Nat.cast_mul, ← pow10_natCast, mul_assoc, ← pow10_add, add_comm, hplace]

end Layout

end DialogScript
