import DialogScript.Proofs.Numerals
import DialogScript.Proofs.Parsing.Failures

/-!
# The parser of expressions

The parser of expressions and the grammar agree. **Soundness** says what comes out of a part of the
parser: a derivation of the tokens that it read, or an error at which the feed snags.
**Completeness** takes a derivation of the tokens that a feed shows to the success of the parser,
if the token after them is no operator (`Level.Stops`).

A binary level is left-recursive in the grammar and a loop in the parser. The two meet in
`Parser.chain`: after the tokens of an expression of a level, the parser of that level is where
its loop would be with that expression as its left operand.
-/

namespace DialogScript

open Grammar

variable {digits : DigitLimit}

private theorem BinaryOperator.tokenKind_injective {op other : BinaryOperator}
    (h : op.tokenKind = other.tokenKind) : op = other := by
  cases op <;> cases other <;> first | rfl | cases h

theorem BinaryOperator.isBoundary_tokenKind (op : BinaryOperator) :
    op.tokenKind.isBoundary = false := by
  cases op <;> rfl

theorem UnaryOperator.isBoundary_tokenKind (op : UnaryOperator) :
    op.tokenKind.isBoundary = false := by
  cases op <;> rfl

namespace Level

/-- The operators of a level are the tokens of the binary operators at it. -/
theorem isOperator_iff {level : Level} {kind : TokenKind} :
    level.isOperator kind = true ↔
      ∃ op : BinaryOperator, op.level = level ∧ op.tokenKind = kind := by
  constructor
  · intro h
    cases level with
    | disjunction => exact ⟨.or, rfl, (eq_of_beq h).symm⟩
    | exclusion => exact ⟨.xor, rfl, (eq_of_beq h).symm⟩
    | conjunction => exact ⟨.and, rfl, (eq_of_beq h).symm⟩
    | comparison =>
      have hmem : kind ∈ _ := List.contains_iff_mem.mp h
      simp only [List.mem_cons, List.not_mem_nil, or_false] at hmem
      rcases hmem with rfl | rfl | rfl | rfl | rfl | rfl
      · exact ⟨.equal, rfl, rfl⟩
      · exact ⟨.notEqual, rfl, rfl⟩
      · exact ⟨.less, rfl, rfl⟩
      · exact ⟨.greater, rfl, rfl⟩
      · exact ⟨.lessOrEqual, rfl, rfl⟩
      · exact ⟨.greaterOrEqual, rfl, rfl⟩
    | sum =>
      simp only [isOperator, Bool.or_eq_true, beq_iff_eq] at h
      rcases h with rfl | rfl
      · exact ⟨.add, rfl, rfl⟩
      · exact ⟨.sub, rfl, rfl⟩
    | product =>
      simp only [isOperator, Bool.or_eq_true, beq_iff_eq] at h
      rcases h with (rfl | rfl) | rfl
      · exact ⟨.mul, rfl, rfl⟩
      · exact ⟨.div, rfl, rfl⟩
      · exact ⟨.mod, rfl, rfl⟩
    | complement | negation | primary => simp [isOperator] at h
  · rintro ⟨op, rfl, rfl⟩
    cases op <;> rfl

/-- The token of an operator is no operator of another level. -/
theorem isOperator_of_ne {level : Level} {op : BinaryOperator} (h : op.level ≠ level) :
    level.isOperator op.tokenKind = false := by
  rw [Bool.eq_false_iff]
  intro hoperator
  obtain ⟨other, hlevel, hkind⟩ := isOperator_iff.mp hoperator
  exact h (BinaryOperator.tokenKind_injective hkind ▸ hlevel)

/-- The levels of unary operators have no binary ones. -/
theorem isOperator_unary (op : UnaryOperator) (kind : TokenKind) :
    op.level.isOperator kind = false := by
  cases op <;> rfl

/-- An expression of a level can start with a token of a kind. -/
def Starts (level : Level) (kind : TokenKind) : Prop :=
  Parser.startsPrimary kind = true ∨ (1 ≤ level.height ∧ kind = .sign .minus) ∨
    (4 ≤ level.height ∧ kind = .keyword .notWord)

private theorem Starts.of_precedes {level next : Level} {kind : TokenKind} (h : next.Starts kind)
    (hnext : level.Precedes next) : level.Starts kind := by
  obtain ⟨-, rfl⟩ := precedes_iff.mp hnext
  have hheight : level.tighter.height ≤ level.height := by cases level <;> decide
  rcases h with h | h | h
  · exact .inl h
  · exact .inr (.inl ⟨Nat.le_trans h.1 hheight, h.2⟩)
  · exact .inr (.inr ⟨Nat.le_trans h.1 hheight, h.2⟩)

private theorem starts_unary (op : UnaryOperator) : op.level.Starts op.tokenKind := by
  cases op with
  | not => exact .inr (.inr ⟨by decide, rfl⟩)
  | negate => exact .inr (.inl ⟨by decide, rfl⟩)

/-- The level after the one of a unary operator does not start with that operator. -/
theorem not_starts_unary {next : Level} {op : UnaryOperator} (h : op.level.Precedes next) :
    ¬ next.Starts op.tokenKind := by
  obtain ⟨-, rfl⟩ := precedes_iff.mp h
  cases op <;> simp [Starts, UnaryOperator.level, UnaryOperator.tokenKind, tighter, height,
    Parser.startsPrimary]

/-- A token of a kind is no operator of a tighter level, so an expression of the level can end
before it. -/
def Stops (level : Level) (kind : TokenKind) : Prop :=
  ∀ other : Level, other.height < level.height → other.isOperator kind = false

private theorem Stops.of_precedes {level next : Level} {kind : TokenKind} (h : level.Stops kind)
    (hnext : level.Precedes next) : next.Stops kind ∧ next.isOperator kind = false := by
  obtain ⟨hlevel, rfl⟩ := precedes_iff.mp hnext
  have hheight := height_tighter_lt hlevel
  exact ⟨fun other hother => h other (Nat.lt_trans hother hheight), h _ hheight⟩

private theorem stops_operator (op : BinaryOperator) : op.level.Stops op.tokenKind := by
  intro other hother
  refine isOperator_of_ne ?_
  rintro rfl
  exact Nat.lt_irrefl _ hother

/-- The kinds of tokens that close an expression. -/
def closes (kind : TokenKind) : Bool :=
  kind == .sign .closeParen || kind == .holeEnd || kind == .lineEnd

private theorem isOperator_of_closes {kind : TokenKind} (h : closes kind = true) (level : Level) :
    level.isOperator kind = false := by
  simp only [closes, Bool.or_eq_true, beq_iff_eq] at h
  rcases h with (rfl | rfl) | rfl <;> cases level <;> rfl

end Level

namespace Token

variable {t : Token}

/-- The operator of a well-made token is the one that its kind stands for. -/
theorem Fits.operatorOf {op : BinaryOperator} (hfits : t.Fits) (h : t.kind = op.tokenKind) :
    Parser.operatorOf t = .ok op := by
  have htext : t.text = op.symbol := by
    rw [Fits, h] at hfits
    cases op <;> exact hfits
  rw [Parser.operatorOf, htext, BinaryOperator.ofSymbol?_symbol]

theorem Fits.integer (hfits : t.Fits) (hkind : t.kind = .integer) :
    Numeral.IsDigits t.text.toList := by
  simpa [Fits, hkind] using hfits

theorem Fits.float (hfits : t.Fits) (hkind : t.kind = .float) :
    ∃ whole fraction, t.text.toList = whole ++ '.' :: fraction ∧
      Numeral.IsDigits whole ∧ Numeral.IsDigits fraction := by
  simpa [Fits, hkind] using hfits

end Token

namespace Grammar

/-- An expression has a first token, with which its level can start. -/
theorem Expression.starts {level : Level} {ts : List Token} {e : Expr}
    (h : Expression digits level ts e) : ∃ t rest, ts = t :: rest ∧ level.Starts t.kind := by
  match h with
  | .tighter hnext h =>
    obtain ⟨t, rest, rfl, hstarts⟩ := h.starts
    exact ⟨t, rest, rfl, hstarts.of_precedes hnext⟩
  | .binary _ _ _ hl _ =>
    obtain ⟨t, rest, rfl, hstarts⟩ := hl.starts
    exact ⟨t, _, rfl, hstarts⟩
  | .unary hlevel hop _ => exact ⟨_, _, rfl, by rw [← hlevel, hop]; exact Level.starts_unary _⟩
  | .integer hkind _ _ | .float hkind _ _ _ | .text hkind | .trueWord hkind | .falseWord hkind
  | .variable hkind | .parenthesized hkind _ _ | .string hkind _ _ =>
    exact ⟨_, _, rfl, .inl (by rw [hkind]; rfl)⟩
termination_by structural h

/-! ### What bounds expressions -/

mutual

/-- An expression holds nothing of what bounds it. -/
theorem Expression.isBoundary_eq_false {level : Level} {ts : List Token} {e : Expr}
    (h : Expression digits level ts e) : ∀ t ∈ ts, t.kind.isBoundary = false := by
  match h with
  | .tighter _ h => exact h.isBoundary_eq_false
  | .binary hlevel hnext hop hl hr =>
    rename_i op t left right l r
    have hkind : t.kind.isBoundary = false := hop ▸ op.isBoundary_tokenKind
    simpa [hkind, or_imp, forall_and] using ⟨hl.isBoundary_eq_false, hr.isBoundary_eq_false⟩
  | .unary hlevel hop h =>
    rename_i op t ts e
    have hkind : t.kind.isBoundary = false := hop ▸ op.isBoundary_tokenKind
    simpa [hkind] using h.isBoundary_eq_false
  | .integer hkind _ _ | .float hkind _ _ _ | .text hkind | .trueWord hkind | .falseWord hkind
  | .variable hkind => simp [hkind, TokenKind.isBoundary]
  | .parenthesized ho hc h =>
    simpa [ho, hc, or_imp, forall_and, TokenKind.isBoundary] using h.isBoundary_eq_false
  | .string ho hc h =>
    simpa [ho, hc, or_imp, forall_and, TokenKind.isBoundary] using h.isBoundary_eq_false
termination_by structural h

theorem Pieces.isBoundary_eq_false {ts : List Token} {pieces : List Piece}
    (h : Pieces digits ts pieces) : ∀ t ∈ ts, t.kind.isBoundary = false := by
  match h with
  | .nil => simp
  | .fragment hkind h => simpa [hkind, TokenKind.isBoundary] using h.isBoundary_eq_false
  | .hole ho hc he h =>
    simpa [ho, hc, or_imp, forall_and, TokenKind.isBoundary] using
      ⟨he.isBoundary_eq_false, h.isBoundary_eq_false⟩
termination_by structural h

end

namespace Expression

variable {level : Level} {ts : List Token} {e : Expr}

theorem kind_ne {kind : TokenKind} (h : Expression digits level ts e)
    (hkind : kind.isBoundary = true) : ∀ t ∈ ts, t.kind ≠ kind := by
  rintro t ht rfl
  rw [h.isBoundary_eq_false t ht] at hkind
  cases hkind

/-- The tokens of an expression are a line's own. -/
theorem own (h : Expression digits level ts e) : ∀ t ∈ ts, t.kind.isLayout = false :=
  fun t ht => TokenKind.isLayout_of_isBoundary (h.isBoundary_eq_false t ht)

theorem endsOwn (h : Expression digits level ts e) : EndsOwn ts := by
  refine .of_forall ?_ h.own
  obtain ⟨t, rest, rfl, -⟩ := h.starts
  exact List.cons_ne_nil t rest

end Expression

end Grammar

namespace Parser

/-! ### Literals -/

/-- An integer that is not too long is held against the range of script integers. -/
theorem integerLiteral_of_admits {t : Token} (span : Span) (h : Numeral.IsDigits t.text.toList)
    (hdigits : digits.Admits t.text.length) :
    integerLiteral t span digits =
      if Numeral.value t.text.toList ≤ 2147483647 then
        .ok (.integer (Numeral.value t.text.toList) span)
      else .error (.malformed ⟨.integerRange t.text, span⟩) := by
  have hbounds : leastInteger ≤ (Numeral.value t.text.toList : Int) ∧
      (Numeral.value t.text.toList : Int) ≤ greatestInteger ↔
        Numeral.value t.text.toList ≤ 2147483647 := by
    unfold leastInteger greatestInteger
    omega
  simp only [integerLiteral, Numeral.readInteger_eq_ok h hdigits, hbounds]

private theorem integerLiteral_tooLong {t : Token} {most : Nat} (span : Span)
    (h : Numeral.IsDigits t.text.toList) (hmost : digits.exceeded? t.text.length = some most) :
    integerLiteral t span digits = .error (.badInteger (.tooLong most t.text.length)) := by
  simp only [integerLiteral, Numeral.readInteger_eq_tooLong h hmost]

private theorem floatLiteral_eq_ok {t : Token} {span : Span} {whole fraction : List Char}
    (h : t.text.toList = whole ++ '.' :: fraction) (hwhole : Numeral.IsDigits whole)
    (hfraction : Numeral.IsDigits fraction) :
    floatLiteral t span = .ok (.float (Numeral.single whole fraction) span) := by
  simp only [floatLiteral, Numeral.readReal?_eq_some h hwhole hfraction, Numeral.single]

/-- The text gathered so far in a string, as a piece of it. -/
def literalPieces : Option (String × Span) → List Piece
  | some (text, span) => [.fragment text span]
  | none => []

theorem parts_literalPieces (literal : Option (String × Span)) :
    Piece.parts (literalPieces literal) = literalPart literal := by
  cases literal <;> simp [literalPieces, literalPart, Piece.parts]

theorem parts_literalPieces_hole (literal : Option (String × Span)) (e : Expr)
    (pieces : List Piece) :
    Piece.parts (literalPieces literal ++ .hole e :: pieces) =
      literalPart literal ++ e :: Piece.parts pieces := by
  cases literal <;> simp [literalPieces, literalPart, Piece.parts]

private theorem parts_addFragment (literal : Option (String × Span)) (text : String) (span : Span)
    (pieces : List Piece) :
    Piece.parts (literalPieces (some (addFragment literal text span)) ++ pieces) =
      Piece.parts (literalPieces literal ++ .fragment text span :: pieces) := by
  cases literal <;> simp [literalPieces, addFragment, Piece.parts]

/-- The node that the parser builds from the parts of a string is the one of the grammar. -/
theorem stringExpr_eq (pieces : List Piece) (span : Span) :
    stringExpr (Piece.parts pieces) span = Piece.node pieces span := by
  unfold stringExpr Piece.node
  split <;> rename_i hparts <;> simp_all

/-! ### Soundness -/

private theorem isLayout_of_isOperator {level : Level} {kind : TokenKind}
    (h : level.isOperator kind = true) : kind.isLayout = false := by
  obtain ⟨op, -, rfl⟩ := Level.isOperator_iff.mp h
  exact TokenKind.isLayout_of_isBoundary op.isBoundary_tokenKind

private theorem isLayout_of_startsPrimary {kind : TokenKind} (h : startsPrimary kind = true) :
    kind.isLayout = false := by
  cases kind <;> first | rfl | cases h

private theorem isLayout_of_isStringPart {kind : TokenKind} (h : isStringPart kind = true) :
    kind.isLayout = false := by
  cases kind <;> first | rfl | cases h

/-- An integer is one of the grammar, or it is too long or out of range. -/
theorem integerLiteral_outcome {f g : Feed} {us : List Token} {t : Token} (ht : t.WellMade)
    (hkind : t.kind = .integer) (hshows : f.Shows us g) (hmem : t ∈ us) :
    Verdict (Expression f.digits .primary [t]) f.Snags (integerLiteral t t.extent f.digits) := by
  have hfits := ht.fits.integer hkind
  cases hmost : f.digits.exceeded? t.text.length with
  | some most =>
    rw [integerLiteral_tooLong t.extent hfits hmost]
    exact ⟨us, g, hshows, .tooLong hmem hkind (hshows.digits ▸ hmost)⟩
  | none =>
    have hdigits := DigitLimit.exceeded?_eq_none.mp hmost
    rw [integerLiteral_of_admits t.extent hfits hdigits]
    split
    · rename_i hrange
      exact .integer hkind hdigits hrange
    · exact ⟨us, g, hshows, .range hmem hkind⟩

mutual

/-- On a line, what the parser reads as an expression of a level is one, or the feed snags. -/
theorem expressionAt_outcome (level : Level) {f g : Feed} {us : List Token} (h : f.OnLine us g) :
    Verdict (fun r => ∃ ts, Expression f.digits level ts r.1 ∧ g.Shows ts r.2.1) f.Snags
      (expressionAt level g) := by
  rw [expressionAt]
  split
  · rename_i hlevel
    subst hlevel
    exact primary_outcome h
  rename_i hlevel
  have hheight := Level.height_tighter_lt hlevel
  have hnext := Level.precedes_tighter hlevel
  split
  · rename_i op kind hunary
    obtain ⟨hown, rfl⟩ := Level.unary?_eq_some.mp hunary
    have hlayout := TokenKind.isLayout_of_isBoundary op.isBoundary_tokenKind
    refine (h.made.acceptOwn h.shows fun kind hkind => ?_).bind ?_
    · exact (eq_of_beq hkind : kind = _) ▸ hlayout
    rintro (_ | ⟨t, f₁, h₁⟩) haccepted
    · refine (expressionAt_outcome level.tighter h).mono_result ?_
      rintro ⟨e, f₁, h₁⟩ ⟨ts, hts, hshows⟩
      exact ⟨ts, .tighter hnext hts, hshows⟩
    · obtain ⟨hkind, hshow, hline⟩ := haccepted _ _ rfl
      refine (expressionAt_outcome level hline).bind ?_
      rintro ⟨operand, f₂, h₂⟩ ⟨ts, hts, hshows⟩
      refine ((h.made.token hshow).place _).bind ?_
      rintro _ rfl
      exact ⟨t :: ts, .unary hown (eq_of_beq hkind) hts, hshow.trans hshows⟩
  · refine (expressionAt_outcome level.tighter h).bind ?_
    rintro ⟨left, f₁, h₁⟩ ⟨ts, hts, hshow⟩
    refine (chain_outcome (.tighter hnext hts) (h.next hshow hts.endsOwn)).bind ?_
    rintro ⟨e, f₂, h₂⟩ ⟨vs, hvs, hshows⟩
    exact ⟨ts ++ vs, hvs, hshow.trans hshows⟩
termination_by (g.remaining, level.height + 1)

/-- What the parser reads after a left operand extends it to an expression of the level. -/
theorem chain_outcome {level : Level} {left : Expr} {f g : Feed} {before us : List Token}
    (hleft : Expression f.digits level before left) (h : f.OnLine us g) :
    Verdict (fun r => ∃ ts, Expression f.digits level (before ++ ts) r.1 ∧ g.Shows ts r.2.1)
      f.Snags (chain level left g) := by
  rw [chain]
  refine (h.made.acceptOwn h.shows fun _ => isLayout_of_isOperator).bind ?_
  rintro (_ | ⟨t, f₁, h₁⟩) haccepted
  · exact ⟨[], by simpa using hleft, Feed.Shows.refl g⟩
  obtain ⟨hkind, hshow, hline⟩ := haccepted _ _ rfl
  obtain ⟨op, hlevel, hop⟩ := Level.isOperator_iff.mp hkind
  have hne : level ≠ .primary := by
    rintro rfl
    cases op <;> cases hlevel
  refine (expressionAt_outcome level.tighter hline).bind ?_
  rintro ⟨right, f₂, h₂⟩ ⟨ts, hts, hshows⟩
  have hless : f₂.remaining < g.remaining := Nat.lt_trans h₂ h₁
  simp only [(h.made.token hshow).fits.operatorOf hop.symm]
  -- Operators are left associative: what was read so far is the next left operand.
  have hbinary := Expression.binary hlevel (Level.precedes_tighter hne) hop.symm hleft hts
  refine (chain_outcome hbinary (hline.next hshows hts.endsOwn)).bind ?_
  rintro ⟨e, f₃, h₃⟩ ⟨vs, hvs, hshows'⟩
  exact ⟨t :: ts ++ vs, by simpa using hvs, (hshow.trans hshows).trans hshows'⟩
termination_by (g.remaining, 0)

/-- On a line, what the parser reads as a primary expression is one, or the feed snags. -/
theorem primary_outcome {f g : Feed} {us : List Token} (h : f.OnLine us g) :
    Verdict (fun r => ∃ ts, Expression f.digits .primary ts r.1 ∧ g.Shows ts r.2.1) f.Snags
      (primary g) := by
  rw [primary]
  refine (h.made.acceptOwn h.shows fun _ => isLayout_of_startsPrimary).bind ?_
  rintro (_ | ⟨t, f₁, h₁⟩) haccepted
  · exact h.complaint rfl
  obtain ⟨hstarts, hshow, hline⟩ := haccepted _ _ rfl
  have ht := h.made.token hshow
  refine (ht.place _).bind ?_
  rintro _ rfl
  dsimp only
  split
  · rename_i hkind
    rw [h.shows.digits]
    exact (integerLiteral_outcome ht hkind hline.shows (by simp)).bind fun e he =>
      ⟨[t], he, hshow⟩
  · rename_i hkind
    obtain ⟨whole, fraction, htext, hwhole, hfraction⟩ := ht.fits.float hkind
    rw [floatLiteral_eq_ok htext hwhole hfraction]
    exact ⟨[t], .float hkind htext hwhole hfraction, hshow⟩
  · rename_i hkind
    exact ⟨[t], .text hkind, hshow⟩
  · rename_i hkind
    exact ⟨[t], .trueWord hkind, hshow⟩
  · rename_i hkind
    exact ⟨[t], .falseWord hkind, hshow⟩
  · rename_i hkind
    exact ⟨[t], .variable hkind, hshow⟩
  · rename_i hkind
    refine (stringParts_outcome none hline).bind ?_
    rintro ⟨parts, last, f₂, h₂⟩ ⟨ts, pieces, hpieces, hlast, hshows, rfl⟩
    have hwhole := hshow.trans hshows
    have hmade := h.made.shown hwhole last (by simp)
    refine (hmade.place _).bind ?_
    rintro _ rfl
    refine ⟨t :: ts ++ [last], ?_, hwhole⟩
    exact stringExpr_eq pieces _ ▸ .string hkind hlast hpieces
  · rename_i hinteger hfloat htext htrue hfalse hname hstring
    -- Of the kinds that start a primary expression only the parenthesis is left.
    have hkind : t.kind = .sign .openParen := by
      have hmem : t.kind ∈ _ := List.contains_iff_mem.mp hstarts
      simp only [List.mem_cons, List.not_mem_nil, or_false] at hmem
      simp_all
    refine (expressionAt_outcome .disjunction hline).bind ?_
    rintro ⟨e, f₂, h₂⟩ ⟨ts, hts, hshows⟩
    refine ((hline.next hshows hts.endsOwn).expect (by decide) _).bind ?_
    rintro ⟨last, f₃, h₃⟩ ⟨hlast, hclose⟩
    exact ⟨t :: ts ++ [last], .parenthesized hkind hlast hts, (hshow.trans hshows).trans hclose⟩
termination_by (g.remaining, 0)

/-- On a line, what the parser reads as the parts of a string are the parts of its pieces, the text
gathered before being the first piece, or the feed snags. -/
theorem stringParts_outcome (literal : Option (String × Span)) {f g : Feed} {us : List Token}
    (h : f.OnLine us g) :
    Verdict (fun r => ∃ ts pieces, Pieces f.digits ts pieces ∧ r.2.1.kind = .stringEnd ∧
      g.Shows (ts ++ [r.2.1]) r.2.2.1 ∧ r.1 = Piece.parts (literalPieces literal ++ pieces))
      f.Snags (stringParts g literal) := by
  rw [stringParts]
  refine (h.made.acceptOwn h.shows fun _ => isLayout_of_isStringPart).bind ?_
  rintro (_ | ⟨t, f₁, h₁⟩) haccepted
  · exact h.complaint rfl
  obtain ⟨hpart, hshow, hline⟩ := haccepted _ _ rfl
  dsimp only
  split
  · rename_i hkind
    refine ((h.made.token hshow).place _).bind ?_
    rintro _ rfl
    refine (stringParts_outcome (some (addFragment literal t.text t.extent)) hline).bind ?_
    rintro ⟨parts, last, f₂, h₂⟩ ⟨ts, pieces, hpieces, hlast, hshows, hgathered⟩
    refine ⟨t :: ts, .fragment t.text t.extent :: pieces, .fragment hkind hpieces, hlast,
      hshow.trans hshows, ?_⟩
    exact hgathered.trans (parts_addFragment literal t.text t.extent pieces)
  · rename_i hkind
    refine (expressionAt_outcome .disjunction hline).bind ?_
    rintro ⟨e, f₂, h₂⟩ ⟨ts, hts, hshows⟩
    have hinner := hline.next hshows hts.endsOwn
    refine (hinner.expect (by decide) _).bind ?_
    rintro ⟨close, f₃, h₃⟩ ⟨hclose, hshowClose⟩
    have hless : f₃.remaining < g.remaining := Nat.lt_trans h₃ (Nat.lt_trans h₂ h₁)
    refine (stringParts_outcome none
      (hinner.next hshowClose (.singleton (by rw [hclose]; rfl)))).bind ?_
    rintro ⟨parts, last, f₄, h₄⟩ ⟨vs, pieces, hpieces, hlast, hshows', rfl⟩
    refine ⟨t :: ts ++ close :: vs, .hole e :: pieces, .hole hkind hclose hts hpieces, hlast,
      by simpa using ((hshow.trans hshows).trans hshowClose).trans hshows', ?_⟩
    exact (parts_literalPieces_hole literal e pieces).symm
  · rename_i htext hhole
    have hkind : t.kind = .stringEnd := by
      simp only [isStringPart, Bool.or_eq_true, beq_iff_eq] at hpart
      rcases hpart with (hkind | hkind) | hkind
      · exact absurd hkind htext
      · exact absurd hkind hhole
      · exact hkind
    exact ⟨[], [], .nil, hkind, hshow, by rw [List.append_nil, parts_literalPieces]⟩
termination_by (g.remaining, 0)

end

/-- On a line, what the parser reads as an expression is one, or the feed snags. -/
theorem expression_outcome {f g : Feed} {us : List Token} (h : f.OnLine us g) :
    Verdict (fun r => ∃ ts, Expression f.digits .disjunction ts r.1 ∧ g.Shows ts r.2.1) f.Snags
      (expression g) :=
  expressionAt_outcome .disjunction h

/-! ### Completeness -/

private theorem chain_eq_self {level : Level} {f : Feed} (e : Expr)
    (h : level.isOperator f.current.kind = false) :
    chain level e f = .ok (e, ⟨f, Nat.le_refl _⟩) := by
  rw [chain, Feed.accept_eq_none.mpr h]
  rfl

private theorem expressionAt_primary (f : Feed) : expressionAt .primary f = primary f := by
  rw [expressionAt]
  rfl

/-- At the tightest level there is nothing to loop over. -/
theorem expressionAt_of_primary {f g : Feed} {e e' : Expr} {k : g.NoLonger}
    (hprimary : ∃ hg, primary f = .ok (e, ⟨g, hg⟩)) (hchain : chain .primary e g = .ok (e', k)) :
    ∃ hk, expressionAt .primary f = .ok (e', ⟨k.1, hk⟩) := by
  obtain ⟨hg, hprimary⟩ := hprimary
  rw [chain_eq_self e rfl] at hchain
  obtain ⟨rfl, rfl⟩ := Prod.mk.inj (Except.ok.inj hchain)
  exact ⟨hg, (expressionAt_primary f).trans hprimary⟩

/-- A level starts with an operand of the next tighter one, unless its own prefix comes first. -/
theorem expressionAt_of_tighter {level next : Level} {f g : Feed} {e e' : Expr} {k : g.NoLonger}
    (hnext : level.Precedes next) (hstarts : next.Starts f.current.kind)
    (htighter : ∃ hg, expressionAt next f = .ok (e, ⟨g, hg⟩))
    (hchain : chain level e g = .ok (e', k)) :
    ∃ hk, expressionAt level f = .ok (e', ⟨k.1, hk⟩) := by
  obtain ⟨hg, htighter⟩ := htighter
  obtain ⟨hlevel, rfl⟩ := Level.precedes_iff.mp hnext
  rw [expressionAt, dif_neg hlevel]
  dsimp only
  split
  · -- A level with a prefix has no operators between operands, so its loop is over at once.
    rename_i op kind hunary
    obtain ⟨rfl, rfl⟩ := Level.unary?_eq_some.mp hunary
    rw [chain_eq_self e (Level.isOperator_unary op _)] at hchain
    obtain ⟨rfl, rfl⟩ := Prod.mk.inj (Except.ok.inj hchain)
    have haccept : f.accept (· == op.tokenKind) = .ok none := by
      rw [Feed.accept_eq_none, beq_eq_false_iff_ne]
      intro hkind
      exact Level.not_starts_unary hnext (hkind ▸ hstarts)
    rw [haccept]
    exact ⟨hg, htighter⟩
  · rw [htighter]
    refine ⟨Nat.lt_of_le_of_lt k.2 hg, ?_⟩
    refine bind_eq_ok.mpr ⟨_, rfl, ?_⟩
    dsimp only
    rw [hchain]
    rfl

/-- The loop of a level takes an operator and an operand. -/
theorem chain_of_operator {level next : Level} {op : BinaryOperator} {t : Token} {f f₁ g : Feed}
    {l r e : Expr} {k : g.NoLonger} (hlevel : op.level = level) (hnext : level.Precedes next)
    (hop : t.kind = op.tokenKind) (hfits : t.Fits) (hshows : f.Shows [t] f₁)
    (hright : ∃ hg, expressionAt next f₁ = .ok (r, ⟨g, hg⟩))
    (hchain : chain level (.binary op l r (l.span.join r.span)) g = .ok (e, k)) :
    ∃ hk, chain level l f = .ok (e, ⟨k.1, hk⟩) := by
  obtain ⟨hg, hright⟩ := hright
  obtain ⟨-, rfl⟩ := Level.precedes_iff.mp hnext
  have hless := hshows.remaining_le
  have hoperator := Level.isOperator_iff.mpr ⟨op, hlevel, hop.symm⟩
  refine ⟨Nat.le_trans k.2 (Nat.le_trans (Nat.le_of_lt hg) hless), ?_⟩
  rw [chain, Feed.accept_complete hshows hoperator]
  simp only [bind, Except.bind, pure, Except.pure, hright, hfits.operatorOf hop, hchain]

/-- A prefix is followed by an operand of its own level. -/
theorem expressionAt_of_unary {level : Level} {op : UnaryOperator} {t : Token} {f f₁ g : Feed}
    {e e' : Expr} {k : g.NoLonger} (hlevel : op.level = level) (hop : t.kind = op.tokenKind)
    (ht : t.initial < t.final) (hshows : f.Shows [t] f₁)
    (hoperand : ∃ hg, expressionAt level f₁ = .ok (e, ⟨g, hg⟩))
    (hchain : chain level (.unary op e (t.extent.join e.span)) g = .ok (e', k)) :
    ∃ hk, expressionAt level f = .ok (e', ⟨k.1, hk⟩) := by
  obtain ⟨hg, hoperand⟩ := hoperand
  have hunary : level.unary? = some (op, t.kind) := Level.unary?_eq_some.mpr ⟨hlevel, hop.symm⟩
  subst hlevel
  rw [chain_eq_self _ (Level.isOperator_unary op _)] at hchain
  obtain ⟨rfl, rfl⟩ := Prod.mk.inj (Except.ok.inj hchain)
  have hlevel : op.level ≠ .primary := by cases op <;> decide
  have haccept := Feed.accept_complete hshows (p := (· == t.kind)) (beq_self_eq_true _)
  refine ⟨Nat.lt_trans hg (hshows.remaining_lt (by simp)), ?_⟩
  rw [expressionAt, dif_neg hlevel]
  simp only [hunary, haccept, bind, Except.bind, pure, Except.pure, hoperand, Token.place_eq_ok ht]

private theorem primary_integer {t : Token} {f g : Feed} (hkind : t.kind = .integer)
    (ht : t.WellMade)
    (hdigits : f.digits.Admits t.text.length)
    (hrange : Numeral.value t.text.toList ≤ 2147483647) (hshows : f.Shows [t] g) :
    ∃ hg, primary f = .ok (.integer (Numeral.value t.text.toList) t.extent, ⟨g, hg⟩) := by
  have hliteral := integerLiteral_of_admits t.extent (ht.fits.integer hkind) hdigits
  rw [if_pos hrange] at hliteral
  refine ⟨hshows.remaining_lt (by simp), ?_⟩
  rw [primary, Feed.accept_complete hshows (by rw [hkind]; rfl)]
  simp only [bind, Except.bind, pure, Except.pure, Token.place_eq_ok ht.columns, hkind, hliteral]

private theorem primary_float {t : Token} {whole fraction : List Char} {f g : Feed}
    (hkind : t.kind = .float) (ht : t.WellMade) (htext : t.text.toList = whole ++ '.' :: fraction)
    (hwhole : Numeral.IsDigits whole) (hfraction : Numeral.IsDigits fraction)
    (hshows : f.Shows [t] g) :
    ∃ hg, primary f = .ok (.float (Numeral.single whole fraction) t.extent, ⟨g, hg⟩) := by
  refine ⟨hshows.remaining_lt (by simp), ?_⟩
  rw [primary, Feed.accept_complete hshows (by rw [hkind]; rfl)]
  simp only [bind, Except.bind, pure, Except.pure, Token.place_eq_ok ht.columns, hkind,
    floatLiteral_eq_ok htext hwhole hfraction]

private theorem primary_parenthesized {o c : Token} {e : Expr} {f f₁ f₂ g : Feed}
    (ho : o.kind = .sign .openParen) (hcolumns : o.initial < o.final)
    (hc : c.kind = .sign .closeParen) (hshowOpen : f.Shows [o] f₁)
    (hinner : ∃ h₂, expressionAt .disjunction f₁ = .ok (e, ⟨f₂, h₂⟩))
    (hshowClose : f₂.Shows [c] g) : ∃ hg, primary f = .ok (e, ⟨g, hg⟩) := by
  obtain ⟨h₂, hinner⟩ := hinner
  have hexpect := Feed.expect_complete hshowClose "')'"
  rw [hc] at hexpect
  have hopen := hshowOpen.remaining_le
  have hclose := hshowClose.remaining_le
  refine ⟨by omega, ?_⟩
  rw [primary, Feed.accept_complete hshowOpen (by rw [ho]; rfl)]
  simp only [bind, Except.bind, pure, Except.pure, Token.place_eq_ok hcolumns, ho, hinner, hexpect]

private theorem primary_string {o c : Token} {parts : List Expr} {f f₁ g : Feed}
    (ho : o.kind = .stringStart) (hcolumns : o.initial < o.final) (hc : c.initial < c.final)
    (hshowOpen : f.Shows [o] f₁)
    (hparts : ∃ hg, stringParts f₁ none = .ok (parts, c, ⟨g, hg⟩)) :
    ∃ hg, primary f = .ok (stringExpr parts (o.extent.join c.extent), ⟨g, hg⟩) := by
  obtain ⟨hg, hparts⟩ := hparts
  refine ⟨Nat.lt_trans hg (hshowOpen.remaining_lt (by simp)), ?_⟩
  rw [primary, Feed.accept_complete hshowOpen (by rw [ho]; rfl)]
  simp only [bind, Except.bind, pure, Except.pure, Token.place_eq_ok hcolumns, ho, hparts,
    Token.place_eq_ok hc]

mutual

/-- After the tokens of an expression of a level, the parser of the level is where its loop is
with that expression as its left operand. -/
theorem expressionAt_complete {level : Level} {ts : List Token} {e : Expr}
    (h : Expression digits level ts e) {f g : Feed} {e' : Expr} {k : g.NoLonger}
    (hdigits : f.digits = digits) (hmade : ∀ t ∈ ts, t.WellMade) (hshows : f.Shows ts g)
    (hstops : level.Stops g.current.kind)
    (hchain : chain level e g = .ok (e', k)) :
    ∃ hk, expressionAt level f = .ok (e', ⟨k.1, hk⟩) := by
  match h with
  | .tighter hnext h =>
    obtain ⟨hstops', hoperator⟩ := hstops.of_precedes hnext
    have htighter := expressionAt_complete h hdigits hmade hshows hstops'
      (chain_eq_self e hoperator)
    obtain ⟨t, rest, rfl, hstarts⟩ := h.starts
    rw [← hshows.current] at hstarts
    exact expressionAt_of_tighter hnext hstarts htighter hchain
  | .binary hlevel hnext hop hl hr =>
    rename_i op t left right l r
    obtain ⟨f₁, hshowLeft, hrest⟩ := hshows.split
    obtain ⟨f₂, hshowOp, hshowRight⟩ := hrest.split_cons
    obtain ⟨hstops', hoperator⟩ := hstops.of_precedes hnext
    have hdigits₂ := ((hshowLeft.trans hshowOp).digits).trans hdigits
    have hright := expressionAt_complete hr hdigits₂ (fun t ht => hmade t (by simp [ht]))
      hshowRight hstops' (chain_eq_self r hoperator)
    -- The left operand is parsed first, and the loop that follows it starts at the operator.
    obtain ⟨hless, hchain'⟩ :=
      chain_of_operator hlevel hnext hop (hmade t (by simp)).fits hshowOp hright hchain
    have hstopsOp : level.Stops f₁.current.kind := by
      rw [hrest.current, hop, ← hlevel]
      exact Level.stops_operator op
    have hleft := expressionAt_complete hl hdigits (fun t ht => hmade t (by simp [ht])) hshowLeft
      hstopsOp hchain'
    exact hleft
  | .unary hlevel hop h =>
    rename_i op t ts e
    obtain ⟨f₁, hshowOp, hshowOperand⟩ := hshows.split_cons
    have hself : chain level e g = .ok (e, ⟨g, Nat.le_refl _⟩) :=
      chain_eq_self e (hlevel ▸ Level.isOperator_unary op _)
    have hoperand := expressionAt_complete h (hshowOp.digits.trans hdigits)
      (fun t ht => hmade t (by simp [ht])) hshowOperand hstops hself
    exact expressionAt_of_unary hlevel hop (hmade t (by simp)).columns hshowOp hoperand hchain
  | .integer hkind hadmits hrange =>
    rename_i t
    exact expressionAt_of_primary
      (primary_integer hkind (hmade t (by simp)) (hdigits ▸ hadmits) hrange hshows) hchain
  | .float hkind htext hwhole hfraction =>
    rename_i t whole fraction
    exact expressionAt_of_primary
      (primary_float hkind (hmade t (by simp)) htext hwhole hfraction hshows) hchain
  | .text hkind | .trueWord hkind | .falseWord hkind | .variable hkind =>
    rename_i t
    have ht := hmade t (by simp)
    refine expressionAt_of_primary ⟨hshows.remaining_lt (by simp), ?_⟩ hchain
    rw [primary, Feed.accept_complete hshows (by rw [hkind]; rfl)]
    simp only [bind, Except.bind, pure, Except.pure, Token.place_eq_ok ht.columns, hkind]
  | .parenthesized ho hc h =>
    rename_i o c ts
    obtain ⟨f₁, hshowOpen, hrest⟩ := hshows.split_cons
    obtain ⟨f₂, hshowInner, hshowClose⟩ := hrest.split
    have hcloses : Level.closes f₂.current.kind = true := by rw [hshowClose.current, hc]; rfl
    have hstopsClose := Level.isOperator_of_closes hcloses
    have hinner := expressionAt_complete h (hshowOpen.digits.trans hdigits)
      (fun t ht => hmade t (by simp [ht])) hshowInner (fun level _ => hstopsClose level)
      (chain_eq_self _ (hstopsClose _))
    exact expressionAt_of_primary
      (primary_parenthesized ho (hmade o (by simp)).columns hc hshowOpen hinner hshowClose) hchain
  | .string ho hc h =>
    rename_i o c ts pieces
    obtain ⟨f₁, hshowOpen, hrest⟩ := hshows.split_cons
    have hparts := stringParts_complete h none (hshowOpen.digits.trans hdigits)
      (fun t ht => hmade t (by simp [ht])) hc hrest
    have hstring :=
      primary_string ho (hmade o (by simp)).columns (hmade c (by simp)).columns hshowOpen hparts
    rw [show literalPieces none ++ pieces = pieces from rfl, stringExpr_eq] at hstring
    exact expressionAt_of_primary hstring hchain
termination_by structural h

/-- The parser reads the pieces of a string up to its closing token, the text gathered before
being the first piece. -/
theorem stringParts_complete {ts : List Token} {pieces : List Piece} (h : Pieces digits ts pieces)
    (literal : Option (String × Span)) {last : Token} {f g : Feed} (hdigits : f.digits = digits)
    (hmade : ∀ t ∈ ts, t.WellMade) (hlast : last.kind = .stringEnd)
    (hshows : f.Shows (ts ++ [last]) g) :
    ∃ hg, stringParts f literal =
      .ok (Piece.parts (literalPieces literal ++ pieces), last, ⟨g, hg⟩) := by
  match h with
  | .nil =>
    have haccept := Feed.accept_complete hshows (p := isStringPart) (by rw [hlast]; rfl)
    refine ⟨hshows.remaining_lt (by simp), ?_⟩
    rw [stringParts, haccept]
    simp only [bind, Except.bind, pure, Except.pure, hlast, List.append_nil, parts_literalPieces]
  | .fragment hkind h =>
    rename_i t ts pieces
    obtain ⟨f₁, hshow, hrest⟩ := hshows.split_cons
    have haccept := Feed.accept_complete hshow (p := isStringPart) (by rw [hkind]; rfl)
    obtain ⟨hg, hparts⟩ := stringParts_complete h (some (addFragment literal t.text t.extent))
      (hshow.digits.trans hdigits) (fun t ht => hmade t (by simp [ht])) hlast hrest
    refine ⟨hshows.remaining_lt (by simp), ?_⟩
    rw [stringParts, haccept]
    simp only [bind, Except.bind, pure, Except.pure, hkind,
      Token.place_eq_ok (hmade t (by simp)).columns, hparts, parts_addFragment]
  | .hole ho hc he h =>
    rename_i o c ts us e pieces
    rw [List.append_assoc, List.cons_append, List.cons_append] at hshows
    obtain ⟨f₁, hshowOpen, hrest⟩ := hshows.split_cons
    obtain ⟨f₂, hshowInner, hrest⟩ := hrest.split
    obtain ⟨f₃, hshowClose, hrest⟩ := hrest.split_cons
    have haccept := Feed.accept_complete hshowOpen (p := isStringPart) (by rw [ho]; rfl)
    have hcloses : Level.closes f₂.current.kind = true := by rw [hshowClose.current, hc]; rfl
    have hstopsClose := Level.isOperator_of_closes hcloses
    have hdigits₁ := hshowOpen.digits.trans hdigits
    obtain ⟨h₂, hinner⟩ := expressionAt_complete he hdigits₁ (fun t ht => hmade t (by simp [ht]))
      hshowInner (fun level _ => hstopsClose level) (chain_eq_self _ (hstopsClose _))
    have hexpect := Feed.expect_complete hshowClose "'\x7d'"
    rw [hc] at hexpect
    obtain ⟨hg, hparts⟩ := stringParts_complete h none
      ((hshowInner.trans hshowClose).digits.trans hdigits₁) (fun t ht => hmade t (by simp [ht]))
      hlast hrest
    refine ⟨hshows.remaining_lt (by simp), ?_⟩
    rw [stringParts, haccept]
    simp only [bind, Except.bind, pure, Except.pure, ho, hinner, hexpect, hparts,
      parts_literalPieces_hole]
    rfl
termination_by structural h

end

/-- The parser reads the tokens of an expression that a closing token follows. -/
theorem expression_complete {ts : List Token} {e : Expr}
    (h : Expression digits .disjunction ts e) {f g : Feed} (hdigits : f.digits = digits)
    (hmade : ∀ t ∈ ts, t.WellMade) (hshows : f.Shows ts g)
    (hcloses : Level.closes g.current.kind = true) :
    ∃ hg, expression f = .ok (e, ⟨g, hg⟩) :=
  have hstops := Level.isOperator_of_closes hcloses
  expressionAt_complete h hdigits hmade hshows (fun level _ => hstops level)
    (chain_eq_self e (hstops _))

/-! ### Integers that are too long -/

/-- An expression that starts with an integer which is too long is not read, at whatever level. -/
theorem expressionAt_tooLong {f g : Feed} {t : Token} {most : Nat} (hshows : f.Shows [t] g)
    (ht : t.WellMade) (hkind : t.kind = .integer)
    (hmost : f.digits.exceeded? t.text.length = some most) (level : Level) :
    expressionAt level f = .error (.badInteger (.tooLong most t.text.length)) := by
  rw [expressionAt]
  by_cases hlevel : level = .primary
  · rw [dif_pos hlevel, primary, Feed.accept_complete hshows (by rw [hkind]; rfl)]
    simp only [bind, Except.bind, Token.place_eq_ok ht.columns, hkind,
      integerLiteral_tooLong t.extent (ht.fits.integer hkind) hmost]
  · rw [dif_neg hlevel]
    have := Level.height_tighter_lt hlevel
    have htighter := expressionAt_tooLong hshows ht hkind hmost level.tighter
    -- A level with a prefix operator finds none; the others need an operand first.
    split
    · rename_i op kind hunary
      have hprefix : (f.current.kind == kind) = false := by
        obtain ⟨-, rfl⟩ := Level.unary?_eq_some.mp hunary
        rw [hshows.current, hkind]
        cases op <;> rfl
      rw [Feed.accept_eq_none.mpr hprefix]
      simpa [bind, Except.bind] using htighter
    · rw [htighter]
      rfl
termination_by level.height

end Parser

end DialogScript
