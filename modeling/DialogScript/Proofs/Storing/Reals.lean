import DialogScript.Proofs.Numbers.Layouts
import DialogScript.Proofs.Storing.Format
import DialogScript.Proofs.Storing.Loading

/-!
# Written doubles read back

The text that `Json.writeReal` writes for a double is read as the same double
(`Json.readsAs_real`). A text spells a value if it is made of digits, a fraction and an exponent
that make it up (`Json.Spells`); whatever spells a value is read as a decimal of that value, and
each of the layouts of a decimal spells its value. That the shortest decimal of a double is read as
the double itself is `Decimal.toFloating_shortest`.
-/

namespace DialogScript

open Text Numeral

namespace Json

/-! ### Spelled numbers -/

/-- A text is a number with a fraction or an exponent. -/
inductive Spells : List Char → Rat → Prop
  | intro {whole fraction exponent : List Char} {e : Int} (hwhole : IsWhole whole)
      (hfraction : ∀ c ∈ fraction, isAsciiDigit c = true) (hexponent : IsExponent 'e' exponent e)
      (hreal : fractionText fraction ++ exponent ≠ []) :
      Spells (whole ++ fractionText fraction ++ exponent)
        (value (whole ++ fraction) * Decimal.pow10 (e - fraction.length))

variable {whole fraction exponent rest : List Char} {e : Int}

private theorem splitExponent_append (h : IsExponent 'e' exponent e) (hrest : Stops rest) :
    splitExponent (exponent ++ rest) = (exponent, rest) := by
  cases h with
  | absent => exact splitExponent_of_stops hrest
  | marked negative h =>
    obtain ⟨htake, hdrop⟩ := takeWhile_run h.2 hrest.isAsciiDigit
    cases negative <;> simp [splitExponent, htake, hdrop, h.1]

theorem Stops.endsDigits (h : Stops rest) : EndsDigits rest := by
  refine fun c hc => ⟨h.isAsciiDigit c hc, ?_⟩
  rintro rfl
  exact h.head?_ne (by decide) (by decide) hc

private theorem splitFraction_fractionText (hfraction : ∀ c ∈ fraction, isAsciiDigit c = true)
    (hrest : EndsDigits rest) :
    splitFraction (fractionText fraction ++ rest) = (fractionText fraction, rest) := by
  cases fraction with
  | nil => exact splitFraction_eq_nil fun hpoint => (hrest '.' hpoint).2 rfl
  | cons c cs =>
    obtain ⟨htake, hdrop⟩ := takeWhile_run hfraction fun c hc => (hrest c hc).1
    rw [Numeral.fractionText, List.cons_append, splitFraction, htake, hdrop]
    rfl

/-- A number that is spelled is read as a decimal of its value. -/
theorem readsAs_of_spells {text : List Char} {q : Rat} (h : Spells text q) (negative : Bool) :
    ∃ d : Decimal, d.toRat = q ∧
      ReadsAs (if negative then '-' :: text else text) (.real (d.toFloating .double negative)) := by
  cases h with
  | @intro whole fraction exponent e hwhole hfraction hexponent hreal =>
    refine ⟨⟨value (whole ++ fraction), e - fraction.length⟩, rfl, ?_⟩
    have hdecimal := decimal?_fractionText hwhole.digits hfraction
      (by simpa using hexponent.endsDigits (.inl rfl) stops_nil.endsDigits)
    have hempty : whole.isEmpty = false := by simpa using hwhole.digits.1
    have hsome : ((fractionText fraction).isEmpty && exponent.isEmpty) = false := by
      simpa using hreal
    have hnumber : ∀ rest, Stops rest →
        readNumber negative (whole ++ fractionText fraction ++ exponent ++ rest)
          = some (.real (Decimal.toFloating .double negative
              ⟨value (whole ++ fraction), e - fraction.length⟩), rest) := by
      intro rest hrest
      have hends := hexponent.endsDigits (.inl rfl) hrest.endsDigits
      rw [List.append_assoc, List.append_assoc]
      simp only [readNumber, splitWhole_append hwhole (hends.fractionText _), hempty,
        splitFraction_fractionText hfraction hends, splitExponent_append hexponent hrest, hsome,
        hdecimal, hexponent.exponent?_eq_some (.inl rfl)]
      rfl
    obtain ⟨c, cs, rfl⟩ := List.exists_cons_of_ne_nil hwhole.digits.1
    exact readsAs_number negative (hwhole.digits.2 c (by simp)) hnumber

/-! ### Layouts -/

private theorem marks_realLayout : realLayout.Marks 'e' 1 := ⟨by decide, by decide⟩

private theorem spells_write {d : Decimal} (hd : d.coefficient ≠ 0) :
    Spells (realLayout.write d).toList d.toRat := by
  have hwrites := Layout.writes_write marks_realLayout hd
  rw [d.toRat_eq]
  generalize (realLayout.write d).toList = text at hwrites
  cases hwrites with
  | @intro whole fraction exponent before after e hwhole hhead hdigits hexponent hplace hend =>
    rw [← Layout.value_eq hdigits hplace]
    have hfraction : ∀ c ∈ fraction, isAsciiDigit c = true := fun c hc =>
      Layout.isAsciiDigit_of_mem (Decimal.isSignificant hd) hdigits (List.mem_append_right whole hc)
    refine .intro ⟨hwhole, hhead⟩ hfraction hexponent ?_
    rcases hend with ⟨rfl, rfl⟩ | ⟨-, hne⟩
    · simp [fractionText]
    · exact hne

private theorem readsAs_zero (negative : Bool) :
    ReadsAs (writeReal (.zero negative)).toList (.real (.zero negative)) := by
  have hspells : Spells ['0', '.', '0'] 0 := by
    have hspells := Spells.intro (isWhole_toDigits 0) (isDigits_toDigits 0).2 .absent
      (by simp [fractionText])
    rwa [show value (Nat.toDigits 10 0 ++ Nat.toDigits 10 0) = 0 from rfl, Nat.cast_zero,
      zero_mul] at hspells
  obtain ⟨d, hd, hread⟩ := readsAs_of_spells hspells negative
  have hzero : d.toFloating .double negative = .zero negative := by
    refine if_pos (not_not.mp fun hne => ?_)
    exact (Decimal.toRat_pos hne).ne' hd
  rw [hzero] at hread
  cases negative <;> exact hread

/-- The text of a number of single precision is read back as the number. -/
theorem readsAs_real {x : Floating} (h : x.IsSingle) :
    ReadsAs (writeReal x).toList (.real x) := by
  cases x with
  | nan => exact readsAs_of_readWord (c := 'N') _ (by decide) (by decide) fun _ => rfl
  | infinite negative =>
    cases negative with
    | true => exact readsAs_of_readWord (c := '-') _ (by decide) (by decide) fun _ => rfl
    | false => exact readsAs_of_readWord (c := 'I') _ (by decide) (by decide) fun _ => rfl
  | zero negative => exact readsAs_zero negative
  | finite q =>
    obtain ⟨hne, hshortest⟩ := Decimal.toFloating_shortest h.holds_double
    obtain ⟨d, hd, hread⟩ := readsAs_of_spells (spells_write hne) (decide (q < 0))
    rw [Decimal.toFloating_congr hne hd, hshortest] at hread
    have htext : (writeReal (.finite q)).toList
        = if decide (q < 0) then
            '-' :: (realLayout.write (Decimal.shortest (Floating.magnitude q))).toList
          else (realLayout.write (Decimal.shortest (Floating.magnitude q))).toList := by
      by_cases hneg : q < 0 <;> simp [writeReal, hneg]
    rwa [htext]

/-! ### Programs -/

private theorem readable_nodeJson {type : String} {fields : List (String × Json)} {span : Span}
    (h : ∀ f ∈ fields, f.2.Readable) : (nodeJson type fields span).Readable := by
  have hspan : span.toJson.Readable := .object (by simp [Readable.integer])
  refine .object fun f hf => ?_
  rcases List.mem_append.mp hf with hf | hf
  · rcases List.mem_cons.mp hf with rfl | hf
    · exact .text
    · exact h f hf
  · obtain rfl := List.mem_singleton.mp hf
    exact hspan

private theorem readable_array_map {α : Type} {form : α → Json} {xs : List α}
    (h : ∀ x ∈ xs, (form x).Readable) : (Json.array (xs.map form)).Readable := by
  refine .array fun j hj => ?_
  obtain ⟨x, hx, rfl⟩ := List.mem_map.mp hj
  exact h x hx

end Json

open Json

/-- The stored form of a proper expression is readable. -/
theorem Expr.readable_toJson {e : Expr} (h : e.Proper) : e.toJson.Readable := by
  induction h with
  | integer | boolean | text | «variable» =>
    rw [Expr.toJson]
    exact readable_nodeJson (by simp [Readable.integer, Readable.boolean, Readable.text])
  | float h =>
    rw [Expr.toJson]
    exact readable_nodeJson (by simpa using .real (readsAs_real h))
  | template _ hparts =>
    rw [Expr.toJson, partsToJson_eq_map]
    exact readable_nodeJson (by simpa using readable_array_map hparts)
  | unary _ hoperand =>
    rw [Expr.toJson]
    exact readable_nodeJson (by simpa using ⟨.text, hoperand⟩)
  | binary _ _ hleft hright =>
    rw [Expr.toJson]
    exact readable_nodeJson (by simpa using ⟨.text, hleft, hright⟩)

/-- The stored form of a proper statement is readable. -/
theorem Stmt.readable_toJson {s : Stmt} (h : s.Proper) : s.toJson.Readable := by
  induction h with
  | assign h =>
    rw [Stmt.toJson]
    exact readable_nodeJson (by simpa using ⟨.text, Expr.readable_toJson h⟩)
  | output h =>
    rw [Stmt.toJson]
    exact readable_nodeJson (by simpa using Expr.readable_toJson h)
  | input =>
    rw [Stmt.toJson]
    exact readable_nodeJson (by simp [Readable.text, InputType.toJson])
  | block _ hbody =>
    rw [Stmt.toJson, allToJson_eq_map]
    exact readable_nodeJson (by simpa using readable_array_map hbody)
  | loop hcondition _ hbody | branch hcondition _ hbody =>
    rw [Stmt.toJson]
    exact readable_nodeJson (by simpa using ⟨Expr.readable_toJson hcondition, hbody⟩)
  | choice _ _ _ hfirst hothers hotherwise =>
    rw [Stmt.toJson, allToJson_eq_map]
    exact readable_nodeJson (by simpa using ⟨hfirst, readable_array_map hothers, hotherwise⟩)
  | absent =>
    rw [Stmt.toJson]
    exact .null

/-- The written form of a program of proper statements reads back as its stored form. -/
theorem Program.read?_write_toJson {p : Program} (h : ∀ s ∈ p.statements, s.Proper) :
    Json.read? p.toJson.write = some p.toJson := by
  have hsource : p.source.toJson.Readable := .object (by simp [Readable.text])
  have hbody : (Json.array (p.statements.map Stmt.toJson)).Readable :=
    readable_array_map fun s hs => Stmt.readable_toJson (h s hs)
  refine read?_write ?_
  rw [Program.toJson, Stmt.toJson, Stmt.allToJson_eq_map]
  exact .object (by simpa using ⟨.text, hsource, hbody⟩)

end DialogScript
