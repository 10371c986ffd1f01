import DialogScript.Proofs.Lexing.Neighbours
import DialogScript.Proofs.Parsing.Statements

/-!
# Where expressions end

The span of an expression is put together from the spans of its parts. It is on the line of the
first token, and goes up to the end of the last token if that is on the same line; but a closing
parenthesis at the end is left out. An expression that goes on below its first line does so in a
string of many lines, and its span ends with the quotes that open this string
(`Grammar.Expression.measured`).
-/

namespace DialogScript

open Grammar

variable {digits : DigitLimit}

/-- Some tokens hold a string that is opened on a line by the quotes `o` and closed further
below. -/
inductive BreaksLine (digits : DigitLimit) (line : Int) (o : Token) : List Token → Prop
  | string {before inner after : List Token} {pieces : List Piece} {c : Token}
      (ho : o.kind = .stringStart) (hc : c.kind = .stringEnd) (h : Pieces digits inner pieces)
      (hline : o.line = line) (hbelow : line < c.line) :
      BreaksLine digits line o (before ++ (o :: inner ++ [c]) ++ after)

theorem BreaksLine.within {line : Int} {o : Token} {ts : List Token}
    (h : BreaksLine digits line o ts) (before after : List Token) :
    BreaksLine digits line o (before ++ ts ++ after) := by
  obtain @⟨before', inner, after', pieces, c, ho, hc, hpieces, hline, hbelow⟩ := h
  have hstring := @BreaksLine.string _ _ _ (before ++ before') _ (after' ++ after) _ _ ho hc hpieces
    hline hbelow
  simpa [List.append_assoc] using hstring

/-- A column at the end of what some tokens put on a line: their last token ends there, a closing
parenthesis apart, or the quotes of a string that goes on below. -/
structure EndsLine (digits : DigitLimit) (line column : Int) (ts : List Token)
    (last : Token) : Prop where
  getLast : ts.getLast? = some last
  within : last.line = line → column ≤ last.final
  final : last.line = line → last.kind ≠ .sign .closeParen → column = last.final
  broken : last.line ≠ line → ∃ o, BreaksLine digits line o ts ∧ column = o.final

/-- Where a span is that some tokens have. -/
structure Measured (digits : DigitLimit) (ts : List Token) (s : Span) (first last : Token) :
    Prop where
  head : ts.head? = some first
  line : first.line = s.line
  initial : first.initial ≤ s.initial
  ends : EndsLine digits s.line s.final ts last

/-- Tokens of a line's own, with columns, in order and on one line outside strings. -/
structure Row (ts : List Token) : Prop where
  rows : InRows ts
  own : ∀ t ∈ ts, t.kind.isLayout = false
  columns : ∀ t ∈ ts, t.initial < t.final

namespace Row

variable {xs ys ts : List Token} {a b t : Token}

theorem ordered (h : Row ts) : ts.Pairwise fun a b => a.EndsBy b.line b.initial := by
  have hordered := h.rows.ordered
  rwa [Lexer.ownTokens_of_ordinary h.own] at hordered

private theorem of_sublist (h : Row ts) (hsub : xs.Sublist ts) (hbeside : xs.IsChain Token.Beside) :
    Row xs := by
  have hown : ∀ t ∈ xs, t.kind.isLayout = false := fun t ht => h.own t (hsub.subset ht)
  refine ⟨⟨?_, hbeside⟩, hown, fun t ht => h.columns t (hsub.subset ht)⟩
  rw [Lexer.ownTokens_of_ordinary hown]
  exact h.ordered.sublist hsub

theorem left (h : Row (xs ++ ys)) : Row xs :=
  h.of_sublist (List.sublist_append_left xs ys) h.rows.beside.left_of_append

theorem right (h : Row (xs ++ ys)) : Row ys :=
  h.of_sublist (List.sublist_append_right xs ys) h.rows.beside.right_of_append

theorem tail (h : Row (t :: ts)) : Row ts := right (show Row ([t] ++ ts) from h)

/-- Tokens that are not both of a string are on one line where they meet. -/
theorem meet (h : Row (xs ++ ys)) (ha : xs.getLast? = some a) (hb : ys.head? = some b)
    (hkind : a.kind.isOfString = false ∨ b.kind.isOfString = false) :
    a.line = b.line ∧ a.final ≤ b.initial := by
  have hbeside := (List.isChain_append.mp h.rows.beside).2.2 a ha b hb
    (h.own a (by simp [List.mem_of_getLast? ha])) (h.own b (by simp [List.mem_of_head? hb]))
  have hends := (List.pairwise_append.mp h.ordered).2.2 a (List.mem_of_getLast? ha) b
    (List.mem_of_head? hb)
  have hline : a.line = b.line := by
    refine hbeside.resolve_right ?_
    rintro ⟨hstring, hstring'⟩
    rcases hkind with hkind | hkind
    · exact absurd (hkind.symm.trans hstring) (by decide)
    · exact absurd (hkind.symm.trans hstring') (by decide)
  unfold Token.EndsBy at hends
  omega

theorem meet_cons (h : Row (a :: ys)) (hb : ys.head? = some b)
    (hkind : a.kind.isOfString = false ∨ b.kind.isOfString = false) :
    a.line = b.line ∧ a.final ≤ b.initial :=
  meet (show Row ([a] ++ ys) from h) rfl hb hkind

/-- The last token is not above the first one. -/
theorem line_le (h : Row ts) (ha : ts.head? = some a) (hb : ts.getLast? = some b) :
    a.line ≤ b.line := by
  obtain ⟨rest, rfl⟩ := List.head?_eq_some_iff.mp ha
  rcases List.mem_cons.mp (List.mem_of_getLast? hb) with rfl | hmem
  · exact Int.le_refl _
  · have hends := (List.pairwise_cons.mp h.ordered).1 b hmem
    unfold Token.EndsBy at hends
    omega

end Row

namespace EndsLine

variable {line column : Int} {ts : List Token} {last : Token}

/-- More tokens before those that end on a line. -/
theorem prepend (h : EndsLine digits line column ts last) (before : List Token) :
    EndsLine digits line column (before ++ ts) last where
  getLast := by rw [List.getLast?_append, h.getLast]; rfl
  within := h.within
  final := h.final
  broken hline := by
    obtain ⟨o, hbreaks, hcolumn⟩ := h.broken hline
    exact ⟨o, by simpa using hbreaks.within before [], hcolumn⟩

/-- More tokens after those that go on below. -/
theorem append (h : EndsLine digits line column ts last) (hline : last.line ≠ line)
    {after : List Token} {t : Token} (hlast : (ts ++ after).getLast? = some t)
    (ht : t.line ≠ line) :
    EndsLine digits line column (ts ++ after) t where
  getLast := hlast
  within hline := absurd hline ht
  final hline := absurd hline ht
  broken _ := by
    obtain ⟨o, hbreaks, hcolumn⟩ := h.broken hline
    exact ⟨o, by simpa using hbreaks.within [] after, hcolumn⟩

end EndsLine

namespace Span

private theorem join_final_of_line_eq {left right : Span} (hline : left.line = right.line)
    (hless : left.initial < right.final) : (join left right).final = right.final := by
  simp [join, hline, hless]

private theorem join_of_line_ne {left right : Span} (hline : left.line ≠ right.line) :
    join left right = left := by
  simp [join, hline]

end Span

namespace Token

variable {t : Token}

private theorem extent_initial (h : t.initial < t.final) : t.extent.initial = t.initial := by
  simp [extent, h]

private theorem extent_final (h : t.initial < t.final) : t.extent.final = t.final := by
  simp [extent, h]

/-- A token alone has its extent. -/
theorem measured (h : t.initial < t.final) : Measured digits [t] t.extent t t where
  head := rfl
  line := (extent_line h).symm
  initial := Int.le_of_eq (extent_initial h).symm
  ends :=
    ⟨rfl, fun _ => Int.le_of_eq (extent_final h), fun _ _ => extent_final h,
      fun hline => absurd (extent_line h).symm hline⟩

end Token

namespace Measured

variable {ts us : List Token} {s s' : Span} {first last first' last' : Token}

/-- Of two spans, the second on the line where the first one's tokens end, the join goes to the
end of the second one. If the first one goes on below its line, the second one does not count. -/
theorem join (h : Measured digits ts s first last) (h' : Measured digits us s' first' last')
    (between : List Token) (hrow : Row (ts ++ between ++ us)) (hmeet : last.line = first'.line)
    (hnext : last.final ≤ first'.initial) :
    Measured digits (ts ++ between ++ us) (s.join s') first last' := by
  have hhead : (ts ++ between ++ us).head? = some first := by
    rw [List.append_assoc, List.head?_append, h.head]
    rfl
  have hlast : (ts ++ between ++ us).getLast? = some last' := by
    rw [List.getLast?_append, h'.ends.getLast]
    rfl
  have hdown := hrow.left.left.line_le h.head h.ends.getLast
  have hdown' := hrow.right.line_le h'.head h'.ends.getLast
  have hline := h.line
  have hline' := h'.line
  by_cases hsame : last.line = s.line
  · -- The first part ends on its line, where the second part goes on.
    have hwithin := h.ends.within hsame
    have hinitial := h'.initial
    have hnonempty := s.nonempty
    have hnonempty' := s'.nonempty
    have hfinal : (s.join s').final = s'.final :=
      Span.join_final_of_line_eq (by omega) (by omega)
    have hsameLine : s'.line = s.line := by omega
    refine ⟨hhead, by simpa using hline, by simpa using h.initial, ?_⟩
    rw [Span.join_line, hfinal, ← hsameLine]
    exact h'.ends.prepend (ts ++ between)
  · rw [Span.join_of_line_ne (by omega)]
    rw [List.append_assoc] at hhead hlast ⊢
    exact ⟨hhead, hline, h.initial, h.ends.append hsame hlast (by omega)⟩

/-- A span within parentheses is that of the tokens with the parentheses. -/
theorem parenthesized {o c : Token} (h : Measured digits ts s first last)
    (hrow : Row (o :: ts ++ [c])) (ho : o.kind = .sign .openParen)
    (hc : c.kind = .sign .closeParen) :
    Measured digits (o :: ts ++ [c]) s o c := by
  have hopen := Row.meet_cons hrow.left h.head (.inl (by rw [ho]; rfl))
  have hclose : last.line = c.line ∧ last.final ≤ c.initial :=
    hrow.meet (h.ends.prepend [o]).getLast rfl (.inr (by rw [hc]; rfl))
  have hline := h.line
  have hinitial := h.initial
  have hcolumns := hrow.columns o (by simp)
  have hcolumns' := hrow.columns c (by simp)
  refine ⟨rfl, by omega, by omega, ?_⟩
  by_cases hsame : last.line = s.line
  · have hwithin := h.ends.within hsame
    exact ⟨List.getLast?_concat, fun _ => by omega, fun _ hkind => absurd hc hkind,
      fun hbelow => absurd (hclose.1.symm.trans hsame) hbelow⟩
  · exact (h.ends.prepend [o]).append hsame List.getLast?_concat (by omega)

/-- A string is measured by its quotes. -/
theorem string {o c : Token} {pieces : List Piece} (hrow : Row (o :: ts ++ [c]))
    (ho : o.kind = .stringStart) (hc : c.kind = .stringEnd) (h : Pieces digits ts pieces) :
    Measured digits (o :: ts ++ [c]) (o.extent.join c.extent) o c := by
  have hcolumns := hrow.columns o (by simp)
  have hcolumns' := hrow.columns c (by simp)
  have hdown := (List.pairwise_cons.mp hrow.ordered).1 c (by simp)
  unfold Token.EndsBy at hdown
  have hline := Token.extent_line hcolumns
  have hline' := Token.extent_line hcolumns'
  have hinitial := Token.extent_initial hcolumns
  have hfinal := Token.extent_final hcolumns
  have hfinal' := Token.extent_final hcolumns'
  refine ⟨rfl, by simpa using hline.symm, by simpa using Int.le_of_eq hinitial.symm, ?_⟩
  by_cases hsame : o.line = c.line
  · have hjoin : (o.extent.join c.extent).final = c.final := by
      rw [Span.join_final_of_line_eq (by omega) (by omega), hfinal']
    exact ⟨List.getLast?_concat, fun _ => Int.le_of_eq hjoin, fun _ _ => hjoin,
      fun hbelow => absurd (by rw [Span.join_line]; omega) hbelow⟩
  · rw [Span.join_of_line_ne (by omega)]
    refine ⟨List.getLast?_concat, fun hsame' => ?_, fun hsame' => ?_, fun _ => ⟨o, ?_, hfinal⟩⟩
    · exact absurd (hsame'.trans hline).symm hsame
    · exact absurd (hsame'.trans hline).symm hsame
    · have hbelow : o.extent.line < c.line := by omega
      simpa using @BreaksLine.string _ _ _ [] _ [] _ _ ho hc h hline.symm hbelow

end Measured

namespace Grammar

private theorem isOfString_of_binary {op : BinaryOperator} {kind : TokenKind}
    (h : kind = op.tokenKind) :
    kind.isOfString = false := by
  rw [h]
  cases op <;> rfl

private theorem isOfString_of_unary {op : UnaryOperator} {kind : TokenKind}
    (h : kind = op.tokenKind) :
    kind.isOfString = false := by
  rw [h]
  cases op <;> rfl

theorem Piece.node_span (pieces : List Piece) (span : Span) :
    (Piece.node pieces span).span = span := by
  unfold Piece.node
  split <;> rfl

/-- The span of an expression is that of its tokens. -/
theorem Expression.measured {level : Level} {ts : List Token} {e : Expr}
    (h : Expression digits level ts e) (hrow : Row ts) :
    ∃ first last, Measured digits ts e.span first last := by
  match h with
  | .tighter _ h => exact h.measured hrow
  | .binary hlevel hnext hop hl hr =>
    rename_i op t left right l r
    obtain ⟨first, last, hleft⟩ := hl.measured hrow.left
    obtain ⟨first', last', hright⟩ := hr.measured hrow.right.tail
    have hstring := isOfString_of_binary hop
    have hbefore := hrow.meet hleft.ends.getLast rfl (.inr hstring)
    have hafter := hrow.right.meet_cons hright.head (.inl hstring)
    have hcolumns := hrow.columns t (by simp)
    rw [← List.singleton_append, ← List.append_assoc] at hrow ⊢
    exact ⟨first, last', hleft.join hright [t] hrow (by omega) (by omega)⟩
  | .unary hlevel hop h =>
    rename_i op t ts e
    obtain ⟨first, last, hoperand⟩ := h.measured hrow.tail
    have hmeet := hrow.meet_cons hoperand.head (.inl (isOfString_of_unary hop))
    have hown : Measured digits [t] t.extent t t := Token.measured (hrow.columns t (by simp))
    exact ⟨t, last, hown.join hoperand [] hrow hmeet.1 hmeet.2⟩
  | .integer _ _ _ | .float _ _ _ _ | .text _ | .trueWord _ | .falseWord _ | .variable _ =>
    exact ⟨_, _, Token.measured (hrow.columns _ (by simp))⟩
  | .parenthesized ho hc h =>
    obtain ⟨first, last, hinner⟩ := h.measured (Row.tail hrow.left)
    exact ⟨_, _, hinner.parenthesized hrow ho hc⟩
  | .string ho hc h =>
    rw [Piece.node_span]
    exact ⟨_, _, .string hrow ho hc h⟩
termination_by structural h

end Grammar

end DialogScript
