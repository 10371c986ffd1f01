import Mathlib.Algebra.Group.Nat.Defs
import Mathlib.Data.List.TakeWhile
import DialogScript.Proofs.Grammar

/-!
# Numerals of digits

A numeral that is made of digits, with a fraction or an exponent behind them or without, is read as
the number it spells: there is nothing to trim and no separator to drop.
-/

namespace DialogScript

/-- A run of a class of characters is taken as a whole if no character of the class follows. -/
theorem Text.takeWhile_run {p : Char → Bool} {cs rest : List Char} (hcs : ∀ c ∈ cs, p c = true)
    (hrest : ∀ c, rest.head? = some c → p c = false) :
    (cs ++ rest).takeWhile p = cs ∧ (cs ++ rest).dropWhile p = rest := by
  have htake : rest.takeWhile p = [] ∧ rest.dropWhile p = rest := by
    cases rest with
    | nil => simp
    | cons c rest => simp [hrest c rfl]
  rw [List.takeWhile_append_of_pos hcs, List.dropWhile_append_of_pos hcs, htake.1, htake.2]
  exact ⟨List.append_nil cs, rfl⟩

namespace Numeral

open Text

theorem isAsciiDigit_iff {c : Char} : isAsciiDigit c = true ↔ 48 ≤ c.toNat ∧ c.toNat ≤ 57 := by
  simp only [isAsciiDigit, Bool.and_eq_true, decide_eq_true_eq, Char.le_def,
    UInt32.le_iff_toNat_le, Char.toNat]
  exact Iff.rfl

private theorem isWhite_of_isAsciiDigit {c : Char} (h : isAsciiDigit c = true) :
    isWhite c = false := by
  obtain ⟨hlow, hhigh⟩ := isAsciiDigit_iff.mp h
  simp only [isWhite, whiteRanges, inRanges]
  grind

private theorem plainDigit_of_isAsciiDigit {c : Char} (h : isAsciiDigit c = true) :
    plainDigit c = c := by
  obtain ⟨hlow, hhigh⟩ := isAsciiDigit_iff.mp h
  have hvalue : digitValue? c = some (c.toNat - 48) := by
    have hfirst : (decide (48 ≤ c.toNat) && decide (c.toNat < 48 + 10)) = true := by
      simp [hlow]
      omega
    simp only [digitValue?, digitZeros, List.find?_cons, hfirst, Option.map_some]
  simp only [plainDigit, hvalue]
  rw [show '0'.toNat + (c.toNat - 48) = c.toNat by
    have : '0'.toNat = 48 := rfl
    omega]
  exact Char.ofNat_toNat c

private theorem trim_eq_self {p : Char → Bool} {cs : List Char} (h : ∀ c ∈ cs, p c = false) :
    trim p cs = cs := by
  have hdrop : ∀ xs : List Char, (∀ c ∈ xs, p c = false) → xs.dropWhile p = xs := by
    intro xs hxs
    cases xs with
    | nil => rfl
    | cons x xs => simp [hxs x (by simp)]
  rw [trim, hdrop cs h, hdrop cs.reverse (by simpa using h), List.reverse_reverse]

private theorem dropSeparators_eq_some {cs : List Char} (h : '_' ∉ cs) (previous : Option Char) :
    dropSeparators previous cs = some cs := by
  induction cs generalizing previous with
  | nil => rfl
  | cons c rest ih =>
    obtain ⟨hc, hrest⟩ := by simpa using h
    rw [dropSeparators.eq_def]
    split
    · contradiction
    · rename_i heq
      exact absurd (List.cons.inj heq).1.symm hc
    · rename_i heq
      obtain ⟨rfl, rfl⟩ := List.cons.inj heq
      simp [ih hrest]

/-- Numbers are written with digits, points, signs and marks of exponents. -/
def NumberChar (c : Char) : Prop := isAsciiDigit c = true ∨ c ∈ ['.', '+', '-', 'e', 'E']

/-- A number is written without blanks around it, in plain digits and without separators. -/
theorem clean_eq {s : String} (h : ∀ c ∈ s.toList, NumberChar c) :
    (trim isWhite s.toList).map plainDigit = s.toList ∧ '_' ∉ s.toList := by
  have hmarks : ∀ c ∈ ['.', '+', '-', 'e', 'E'],
      isWhite c = false ∧ plainDigit c = c ∧ c ≠ '_' := by
    intro c hc
    simp only [List.mem_cons, List.not_mem_nil, or_false] at hc
    rcases hc with rfl | rfl | rfl | rfl | rfl <;> decide
  have hwhite : ∀ c ∈ s.toList, isWhite c = false := by
    intro c hc
    rcases h c hc with hdigit | hmark
    · exact isWhite_of_isAsciiDigit hdigit
    · exact (hmarks c hmark).1
  have hplain : s.toList.map plainDigit = s.toList := by
    refine (List.map_congr_left fun c hc => ?_).trans (List.map_id s.toList)
    rcases h c hc with hdigit | hmark
    · exact plainDigit_of_isAsciiDigit hdigit
    · exact (hmarks c hmark).2.1
  have hseparator : '_' ∉ s.toList := by
    intro hmem
    rcases h _ hmem with hdigit | hmark
    · exact absurd hdigit (by decide)
    · exact (hmarks _ hmark).2.2 rfl
  exact ⟨by rw [trim_eq_self hwhite, hplain], hseparator⟩

/-- The text of a number needs no clean-up. -/
theorem plain?_eq_some {s : String} (h : ∀ c ∈ s.toList, NumberChar c) :
    plain? s = some s.toList := by
  obtain ⟨hclean, hseparator⟩ := clean_eq h
  rw [plain?, hclean, dropSeparators_eq_some hseparator]

theorem isDigits_singleton {c : Char} (h : isAsciiDigit c = true) : IsDigits [c] :=
  ⟨List.cons_ne_nil c [], List.forall_mem_singleton.mpr h⟩

/-- Digits do not start with a sign. -/
theorem splitSign_eq {cs : List Char} (h : IsDigits cs) (rest : List Char) :
    splitSign (cs ++ rest) = (false, cs ++ rest) := by
  obtain ⟨hne, hdigits⟩ := h
  cases cs with
  | nil => exact absurd rfl hne
  | cons c cs =>
    have hc := hdigits c (by simp)
    rw [List.cons_append, splitSign.eq_def]
    split
    · rename_i heq
      rw [(List.cons.inj heq).1] at hc
      exact absurd hc (by decide)
    · rename_i heq
      rw [(List.cons.inj heq).1] at hc
      exact absurd hc (by decide)
    · rfl

/-- A run of digits is read as the number it spells. -/
theorem readInteger?_eq_some {s : String} (h : IsDigits s.toList) :
    readInteger? s = some (value s.toList : Int) := by
  have hplain := plain?_eq_some fun c hc => Or.inl (h.2 c hc)
  have hsign : splitSign s.toList = (false, s.toList) := by simpa using splitSign_eq h []
  have hnatural : natural? s.toList = some (value s.toList) := by
    have hempty : s.toList.isEmpty = false := by simpa using h.1
    have hall : s.toList.all isAsciiDigit = true := List.all_eq_true.mpr h.2
    simp [natural?, hempty, hall]
  simp [readInteger?, hplain, hsign, hnatural]

/-- All characters of a run of digits count as its digits, the zeros in front of it included. -/
theorem leadingDigits_eq_length {s : String} (h : IsDigits s.toList) :
    leadingDigits s = s.length := by
  obtain ⟨hclean, hseparator⟩ := clean_eq fun c hc => .inl (h.2 c hc)
  have hsign : splitSign s.toList = (false, s.toList) := by simpa using splitSign_eq h []
  have hrun : s.toList.takeWhile (fun c => isAsciiDigit c || c == '_') = s.toList :=
    List.takeWhile_eq_self_iff.mpr fun c hc => by simp [h.2 c hc]
  simp [leadingDigits, hclean, hsign, hrun, dropSeparators_eq_some hseparator, String.length_toList]

variable {limit : DigitLimit} {s : String}

/-- A text is read as a whole number if it is one and is not too long. -/
theorem readInteger_eq_ok_iff {n : Int} :
    readInteger s limit = .ok n ↔ limit.Admits (leadingDigits s) ∧ readInteger? s = some n := by
  unfold readInteger
  cases hmost : limit.exceeded? (leadingDigits s) with
  | some most =>
    have hlong : ¬limit.Admits (leadingDigits s) := by
      simp [← DigitLimit.exceeded?_eq_none, hmost]
    simp [hlong]
  | none =>
    have hshort := DigitLimit.exceeded?_eq_none.mp hmost
    cases readInteger? s <;> simp [hshort]

/-- A run of digits that is not too long is read as the number it spells. -/
theorem readInteger_eq_ok (h : IsDigits s.toList) (hdigits : limit.Admits s.length) :
    readInteger s limit = .ok (value s.toList : Int) :=
  readInteger_eq_ok_iff.mpr ⟨leadingDigits_eq_length h ▸ hdigits, readInteger?_eq_some h⟩

/-- A run of digits that is too long is not read, whatever number it spells. -/
theorem readInteger_eq_tooLong (h : IsDigits s.toList) {most : Nat}
    (hmost : limit.exceeded? s.length = some most) :
    readInteger s limit = .error (.tooLong most s.length) := by
  simp only [readInteger, leadingDigits_eq_length h, hmost]

/-! ### Fractions and exponents -/

/-- The text of a fraction, which is left out if it has no digits. -/
def fractionText : List Char → List Char
  | [] => []
  | c :: cs => '.' :: c :: cs

theorem fractionText_eq_cons {cs : List Char} (h : cs ≠ []) : fractionText cs = '.' :: cs := by
  cases cs with
  | nil => exact absurd rfl h
  | cons c cs => rfl

/-- A text, which may be empty, is an exponent: a mark, a sign and digits. -/
inductive IsExponent (mark : Char) : List Char → Int → Prop
  | absent : IsExponent mark [] 0
  | marked {digits : List Char} (negative : Bool) (h : IsDigits digits) :
      IsExponent mark (mark :: (if negative then '-' else '+') :: digits)
        (if negative then -(value digits : Int) else value digits)

/-- A text starts with neither a digit nor a point. -/
def EndsDigits (rest : List Char) : Prop :=
  ∀ c, rest.head? = some c → isAsciiDigit c = false ∧ c ≠ '.'

private theorem endsDigits_nil : EndsDigits [] := by simp [EndsDigits]

variable {mark : Char} {whole fraction exponent rest : List Char} {e : Int}

theorem IsExponent.exponent?_eq_some (h : IsExponent mark exponent e)
    (hmark : mark = 'e' ∨ mark = 'E') : exponent? exponent = some e := by
  cases h with
  | absent => rfl
  | @marked digits negative h =>
    have hempty : digits.isEmpty = false := by simpa using h.1
    have hall : digits.all isAsciiDigit = true := List.all_eq_true.mpr h.2
    rcases hmark with rfl | rfl <;> cases negative <;>
      simp [exponent?, splitSign, natural?, hempty, hall]

theorem IsExponent.endsDigits (h : IsExponent mark exponent e) (hmark : mark = 'e' ∨ mark = 'E')
    (hrest : EndsDigits rest) : EndsDigits (exponent ++ rest) := by
  cases h with
  | absent => exact hrest
  | marked =>
    intro c hc
    cases hc
    rcases hmark with rfl | rfl <;> decide

private theorem IsExponent.numberChar (h : IsExponent mark exponent e)
    (hmark : mark = 'e' ∨ mark = 'E') :
    ∀ c ∈ exponent, NumberChar c := by
  cases h with
  | absent => simp
  | marked negative h =>
    simp only [List.forall_mem_cons]
    refine ⟨?_, ?_, fun c hc => .inl (h.2 c hc)⟩
    · rcases hmark with rfl | rfl <;> exact .inr (by decide)
    · cases negative <;> exact .inr (by decide)

theorem mem_fractionText {c : Char} (h : c ∈ fractionText fraction) : c = '.' ∨ c ∈ fraction := by
  cases fraction with
  | nil => simp [fractionText] at h
  | cons x xs => exact List.mem_cons.mp h

theorem head?_point (cs : List Char) (c : Char) (h : ('.' :: cs).head? = some c) :
    isAsciiDigit c = false := by
  cases h
  decide

theorem EndsDigits.fractionText (h : EndsDigits rest) (fraction : List Char) :
    ∀ c, (fractionText fraction ++ rest).head? = some c → isAsciiDigit c = false := by
  cases fraction with
  | nil => exact fun c hc => (h c hc).1
  | cons x xs => exact head?_point _

/-- Digits, a fraction and an exponent are read as the decimal that they spell. -/
theorem decimal?_fractionText (hwhole : IsDigits whole)
    (hfraction : ∀ c ∈ fraction, isAsciiDigit c = true) (hrest : EndsDigits rest) :
    decimal? (whole ++ fractionText fraction ++ rest)
      = (exponent? rest).map fun e => ⟨value (whole ++ fraction), e - fraction.length⟩ := by
  have hempty : whole.isEmpty = false := by simpa using hwhole.1
  obtain ⟨htake, hdrop⟩ := takeWhile_run hwhole.2 (hrest.fractionText fraction)
  rw [List.append_assoc, decimal?, htake, hdrop]
  simp only [hempty]
  cases fraction with
  | nil =>
    rw [Numeral.fractionText, List.nil_append]
    split
    · exact absurd rfl (hrest '.' rfl).2
    · cases exponent? rest <;> rfl
  | cons c cs =>
    obtain ⟨htake', hdrop'⟩ := takeWhile_run hfraction fun c hc => (hrest c hc).1
    rw [Numeral.fractionText, List.cons_append]
    simp only [htake', hdrop']
    cases exponent? rest <;> rfl

private theorem toLower_of_isAsciiDigit {c : Char} (h : isAsciiDigit c = true) : c.toLower = c := by
  obtain ⟨-, hhigh⟩ := isAsciiDigit_iff.mp h
  refine dif_neg ?_
  rintro ⟨hlow, -⟩
  have : 65 ≤ c.toNat := hlow
  omega

/-- A text of digits, a fraction and an exponent, with a minus sign or without, is read as the
double nearest to the decimal that it spells. -/
theorem readReal?_of_parts {s : String} {negative : Bool} (hmark : mark = 'e' ∨ mark = 'E')
    (h : s.toList
      = (if negative then ['-'] else []) ++ (whole ++ fractionText fraction ++ exponent))
    (hwhole : IsDigits whole) (hfraction : ∀ c ∈ fraction, isAsciiDigit c = true)
    (hexponent : IsExponent mark exponent e) :
    readReal? s = some (Decimal.toFloating .double negative
      ⟨value (whole ++ fraction), e - fraction.length⟩) := by
  have hplain : plain? s = some s.toList := by
    refine plain?_eq_some fun c hc => ?_
    rw [h, List.mem_append, List.mem_append, List.mem_append] at hc
    rcases hc with hsign | (hc | hc) | hc
    · refine .inr ?_
      cases negative with
      | true => rw [List.mem_singleton.mp hsign]; decide
      | false => simp at hsign
    · exact .inl (hwhole.2 c hc)
    · rcases mem_fractionText hc with rfl | hc
      · exact .inr (by decide)
      · exact .inl (hfraction c hc)
    · exact hexponent.numberChar hmark c hc
  have hsplit : splitSign s.toList = (negative, whole ++ fractionText fraction ++ exponent) := by
    rw [h]
    cases negative with
    | true => rfl
    | false =>
      rw [if_neg (by decide), List.nil_append, List.append_assoc]
      exact splitSign_eq hwhole _
  have hdecimal := decimal?_fractionText hwhole hfraction
    (by simpa using hexponent.endsDigits hmark endsDigits_nil)
  rw [hexponent.exponent?_eq_some hmark, Option.map_some] at hdecimal
  -- A word for an infinity or an undefined number holds no digit.
  have hword : ∀ word : String, word.toList.any isAsciiDigit = false →
      (String.ofList ((whole ++ fractionText fraction ++ exponent).map Char.toLower) == word)
        = false := by
    obtain ⟨c, cs, rfl⟩ := List.exists_cons_of_ne_nil hwhole.1
    have hc : isAsciiDigit c = true := hwhole.2 c (by simp)
    intro word hletters
    rw [beq_eq_false_iff_ne]
    rintro rfl
    simp [toLower_of_isAsciiDigit hc, hc] at hletters
  simp only [readReal?, hplain, hsplit, Option.bind_eq_bind, Option.bind_some,
    hword "inf" (by decide), hword "infinity" (by decide), hword "nan" (by decide), hdecimal]
  rfl

/-- Digits with a point between them are read as the double nearest to what they spell. -/
theorem readReal?_eq_some {s : String} (h : s.toList = whole ++ '.' :: fraction)
    (hwhole : IsDigits whole) (hfraction : IsDigits fraction) :
    readReal? s = some (Decimal.toFloating .double false
      ⟨value (whole ++ fraction), -(fraction.length : Int)⟩) := by
  have hparts : s.toList
      = (if false then ['-'] else []) ++ (whole ++ fractionText fraction ++ []) := by
    rw [h, fractionText_eq_cons hfraction.1]
    simp
  have hread := readReal?_of_parts (.inl rfl) hparts hwhole hfraction.2 .absent
  rwa [Int.zero_sub] at hread

theorem value_append (cs ds : List Char) :
    value (cs ++ ds) = 10 ^ ds.length * value cs + value ds := by
  change Nat.ofDigitChars 10 (cs ++ ds) 0
    = 10 ^ ds.length * Nat.ofDigitChars 10 cs 0 + Nat.ofDigitChars 10 ds 0
  rw [Nat.ofDigitChars_append, Nat.ofDigitChars_eq_ofDigitChars_zero]

theorem value_replicate_zero (n : Nat) : value (List.replicate n '0') = 0 :=
  (Nat.ofDigitChars_replicate_zero (b := 10)).trans (Nat.mul_zero _)

theorem isAsciiDigit_of_mem_zeros {n : Nat} {c : Char} (hc : c ∈ List.replicate n '0') :
    isAsciiDigit c = true := by
  rw [(List.mem_replicate.mp hc).2]
  decide

theorem isDigits_replicate {c : Char} (hc : isAsciiDigit c = true) (n : Nat) :
    IsDigits (List.replicate (n + 1) c) := by
  refine ⟨List.cons_ne_nil c (List.replicate n c), fun d hd => ?_⟩
  rwa [(List.mem_replicate.mp hd).2]

end Numeral

theorem isDigits_toDigits (n : Nat) : Numeral.IsDigits (Nat.toDigits 10 n) := by
  refine ⟨Nat.toDigits_ne_nil, fun c hc => ?_⟩
  have hdigit := Nat.isDigit_of_mem_toDigits (by decide) (by decide) hc
  simpa [Char.isDigit, Text.isAsciiDigit, Char.le_def] using hdigit

/-- The digits of a number spell it. -/
theorem value_toDigits (n : Nat) : Numeral.value (Nat.toDigits 10 n) = n :=
  Nat.ofDigitChars_ten_toDigits

/-- The digits of a positive number start with one that is not zero. -/
theorem head_toDigits {n : Nat} (hn : 0 < n) : ∀ c ∈ (Nat.toDigits 10 n).head?, c ≠ '0' := by
  induction n using Nat.strongRecOn with
  | _ n ih =>
    intro c hc
    by_cases hless : n < 10
    · have hdigit : ∀ n < 10, 0 < n → Nat.digitChar n ≠ '0' := by decide
      rw [Nat.toDigits_of_lt_base hless] at hc
      rw [← Option.mem_some.mp hc]
      exact hdigit n hless hn
    · obtain ⟨x, xs, hx⟩ := List.exists_cons_of_ne_nil (isDigits_toDigits (n / 10)).1
      rw [Nat.toDigits_of_base_le (by decide) (by omega), hx, List.cons_append,
        List.head?_cons] at hc
      exact ih (n / 10) (by omega) (by omega) c (by rwa [hx, List.head?_cons])

end DialogScript
