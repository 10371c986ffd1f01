import DialogScript.Proofs.Lexing.Layout

/-!
# Tokens rebuild their source

The columns of the tokens account for all of a text. Apart from the layout, the tokens are in the
order of the source and do not overlap; what stands between the columns of a token is how the
token is written; and what stands between the tokens is blank or part of a comment
(`tokenize_rebuilds`). A `#` starts a comment wherever it stands, also within a string.

The line breaks of a block string are the one kind of tokens that are given late: whether a break
belongs to the string is known only when more of the string follows. The invariant
(`Lexer.Accounted`) keeps the breaks that wait apart from the tokens that have been given.
-/

namespace DialogScript

open Text

namespace Token

/-- What stands in a text between the columns of a token. -/
def slice (text : String) (t : Token) : List Char :=
  (((line? text.toList t.line).getD []).take (t.final - 1).toNat).drop (t.initial - 1).toNat

/-- A token ends before a place: on a line above, or further to the left. -/
def EndsBy (t : Token) (line column : Int) : Prop :=
  t.line < line ∨ t.line = line ∧ t.final ≤ column

/-- A place is one of the columns of a token. -/
def Covers (t : Token) (line column : Int) : Prop :=
  t.line = line ∧ t.initial ≤ column ∧ column < t.final

/-- Whether a token is a line break of a block string. A break that is written as an escape has
two columns. -/
def isLineBreak (t : Token) : Bool :=
  t.kind == .text && t.text == "\n" && t.final == t.initial + 1

theorem EndsBy.trans {t : Token} {line column line' column' : Int} (h : t.EndsBy line column)
    (hle : line < line' ∨ line = line' ∧ column ≤ column') : t.EndsBy line' column' := by
  unfold EndsBy at *
  omega

end Token

/-- The tokens that are no layout. -/
def ownTokens (tokens : List Token) : List Token := tokens.filter (!·.kind.isLayout)

/-- A character of a line is accounted for: a token covers it, it is blank, or a comment has
started. -/
def AccountedFor (tokens : List Token) (line : List Char) (number k : Nat) (ch : Char) : Prop :=
  (∃ t ∈ tokens, t.Covers number ((k : Int) + 1)) ∨ Cursor.isIndentChar ch = true ∨
    '#' ∈ line.take (k + 1)

theorem AccountedFor.append {tokens line : List _} {number k : Nat} {ch : Char}
    (h : AccountedFor tokens line number k ch) (more : List Token) :
    AccountedFor (tokens ++ more) line number k ch :=
  h.imp (fun ⟨t, ht, hcovers⟩ => ⟨t, List.mem_append_left _ ht, hcovers⟩) id

/-- From a column on, a line of a text is blank up to its comment. -/
def BlankFrom (text : String) (number column : Int) : Prop :=
  ∀ cs, line? text.toList number = some cs → ∀ (k : Nat) (ch : Char), cs[k]? = some ch →
    column ≤ k + 1 → Cursor.isIndentChar ch = true ∨ '#' ∈ cs.take (k + 1)

/-- A token stands for the characters between its columns, or for a line break of a block string
where its line is blank. -/
def Token.StandsFor (text : String) (t : Token) : Prop :=
  t.WrittenAs (t.slice text) ∨ t.isLineBreak = true ∧ BlankFrom text t.line t.initial

/-- Tokens that rebuild the text they are read from. -/
structure Rebuilds (text : String) (tokens : List Token) : Prop where
  ordered : tokens.Pairwise fun a b => a.EndsBy b.line b.initial
  columns : ∀ t ∈ tokens, 1 ≤ t.initial ∧ t.initial < t.final
  written : ∀ t ∈ tokens, t.StandsFor text
  covered : ∀ (n : Nat) (cs : List Char), (lines text.toList)[n]? = some cs →
    ∀ (k : Nat) (ch : Char), cs[k]? = some ch → AccountedFor tokens cs (n + 1) k ch

namespace Cursor

variable {c d e : Cursor} {cs : List Char}

/-- A cursor gets from one place to another over blanks, ends of lines and comments. -/
inductive Skips : Cursor → Cursor → Prop
  | refl (c : Cursor) : Skips c c
  | blanks {c d e : Cursor} {cs : List Char} (h : c.Passes cs d)
      (hblank : ∀ b ∈ cs, isIndentChar b = true) (hrest : Skips d e) : Skips c e
  | lineEnd {c d e : Cursor} {ch : Char} (hend : c.atLineEnd = true)
      (h : c.read? = some (ch, d)) (hrest : Skips d e) : Skips c e
  | styled {c e : Cursor} {ch : Char} (hrest : Skips (c.withStyle ch) e) : Skips c e

private theorem skips_skipBlanks (c : Cursor) : c.Skips c.skipBlanks :=
  .blanks (passes_skipBlanks c) (List.all_eq_true.mp List.all_takeWhile) (.refl _)

private theorem skips_skipLineEnd (c : Cursor) : c.Skips (Lexer.skipLineEnd c) := by
  unfold Lexer.skipLineEnd
  split
  · rename_i hend
    split
    · rename_i hread
      exact .lineEnd hend hread (.refl _)
    · exact .refl c
  · exact .refl c

/-- At the end of a line nothing is left of it, or a comment. -/
theorem line_of_atLineEnd {line : List Char} {more : List (List Char)} (hend : c.atLineEnd = true)
    (hsplit : splitBreaks c.rest = line :: more) :
    line = [] ∨ ∃ comment, line = '#' :: comment := by
  unfold atLineEnd at hend
  split at hend
  · rename_i hrest
    rw [hrest] at hsplit
    exact .inl (List.cons.inj hsplit).1.symm
  · rename_i ch rest hrest
    rw [hrest] at hsplit
    simp only [Bool.or_eq_true, beq_iff_eq] at hend
    rcases hend with rfl | rfl
    · exact .inl (List.cons.inj hsplit).1.symm
    · obtain ⟨line', more', hrest'⟩ := splitBreaks_eq_cons rest
      have hcons := splitBreaks_append (show '\n' ∉ ['#'] by decide) hrest'
      rw [List.singleton_append, hsplit] at hcons
      exact .inr ⟨line', (List.cons.inj hcons).1⟩

/-- Indentation is blanks and lines without text. -/
theorem readIndent_skips {limit : Option Nat} {r : Except SyntaxError Nat}
    (h : c.readIndent limit = (r, d)) : c.Skips d := by
  have hblank {c next : Cursor} {x ch : Char} (hread : c.read? = some (x, next))
      (hend : ¬c.atLineEnd = true) (hpeek : c.peek = some ch) (hch : isIndentChar ch = true) :
      c.Passes [x] next ∧ ∀ b ∈ [x], isIndentChar b = true := by
    have hpasses := passes_of_read? hend hread
    obtain rfl : x = ch := by simpa [peek, hpasses.rest] using hpeek
    exact ⟨hpasses, by simpa using hch⟩
  fun_induction readIndent limit c with
  | case1 | case2 | case4 | case7 | case8 =>
    obtain ⟨-, rfl⟩ := Prod.mk.inj h
    exact .refl _
  | case3 _ _ _ hread _ _ hend ih => exact .lineEnd hend hread (ih h)
  | case5 _ _ _ hread _ _ hend _ hpeek hch _ ih =>
    obtain ⟨hpasses, hx⟩ := hblank hread hend hpeek hch
    exact .blanks hpasses hx (.styled (ih h))
  | case6 _ _ _ hread _ _ hend _ _ hpeek hch ih =>
    obtain ⟨hpasses, hx⟩ := hblank hread hend hpeek hch
    exact .blanks hpasses hx (ih h)

end Cursor

namespace Lexer

variable {text : String} {acc : List Token} {w : List Span} {c d : Cursor} {cs : List Char}

/-- The tokens and the waiting line breaks that a text has given up to a cursor. -/
structure Accounted (text : String) (acc : List Token) (w : List Span) (c : Cursor) : Prop where
  ordered : acc.Pairwise fun a b => a.EndsBy b.line b.initial
  columns : ∀ t ∈ acc, 1 ≤ t.initial ∧ t.initial < t.final
  written : ∀ t ∈ acc, t.StandsFor text
  above : ∀ t ∈ acc, t.EndsBy c.line c.column
  /-- The breaks that wait are on lines of their own, above the cursor. -/
  breaks : w.Pairwise fun p q => p.line < q.line
  points : ∀ p ∈ w, p.line < c.line ∧ 1 ≤ p.initial ∧ p.final = p.initial + 1 ∧
    BlankFrom text p.line p.initial
  awaited : ∀ t ∈ acc, ∀ p ∈ w, t.EndsBy p.line p.initial
  covered : ∀ (n : Nat) (cs : List Char), (lines text.toList)[n]? = some cs →
    ∀ (k : Nat) (ch : Char), cs[k]? = some ch →
      (n + 1 < c.line ∨ n + 1 = c.line ∧ k + 1 < c.column) → AccountedFor acc cs (n + 1) k ch
  placed : c.StandsPast (normalizeBreaks text.toList) ∨
    ∃ part, c.StandsAfter (normalizeBreaks text.toList) part

namespace Accounted

theorem ofText (text : String) : Accounted text [] [] (Cursor.ofText text) where
  ordered := .nil
  columns := List.forall_mem_nil _
  written := List.forall_mem_nil _
  above := List.forall_mem_nil _
  breaks := .nil
  points := List.forall_mem_nil _
  awaited := List.forall_mem_nil _
  covered := by
    intro n line _ k ch _ hbefore
    change n + 1 < 1 ∨ n + 1 = 1 ∧ k + 1 < 1 at hbefore
    omega
  placed := .inr ⟨[], Cursor.standsAfter_ofText text⟩

/-- The cursor can go on if what it goes over is accounted for. -/
theorem move (h : Accounted text acc w c)
    (hle : c.line < d.line ∨ c.line = d.line ∧ c.column ≤ d.column)
    (hplaced : d.StandsPast (normalizeBreaks text.toList) ∨
      ∃ part, d.StandsAfter (normalizeBreaks text.toList) part)
    (hnew : ∀ (n : Nat) (cs : List Char), (lines text.toList)[n]? = some cs →
      ∀ (k : Nat) (ch : Char), cs[k]? = some ch → n + 1 = c.line → c.column ≤ k + 1 →
        (n + 1 < d.line ∨ k + 1 < d.column) → AccountedFor acc cs (n + 1) k ch)
    (hnext : d.line ≤ c.line + 1) (hstart : c.line < d.line → d.column = 1) :
    Accounted text acc w d where
  ordered := h.ordered
  columns := h.columns
  written := h.written
  above := fun t ht => (h.above t ht).trans (by omega)
  breaks := h.breaks
  points := by
    intro p hp
    obtain ⟨hline, hrest⟩ := h.points p hp
    exact ⟨by omega, hrest⟩
  awaited := h.awaited
  covered := by
    intro n line hline k ch hch hbefore
    by_cases hold : n + 1 < c.line ∨ n + 1 = c.line ∧ k + 1 < c.column
    · exact h.covered n line hline k ch hch hold
    · exact hnew n line hline k ch hch (by omega) (by omega) (by omega)
  placed := hplaced

/-- Where a character can be passed, the cursor stands on a line of the source. -/
theorem standsAfter (h : Accounted text acc w c) (hne : c.rest ≠ []) :
    ∃ part, c.StandsAfter (normalizeBreaks text.toList) part :=
  h.placed.resolve_left fun hpast => hne hpast.rest

private theorem passes_blanks (h : Accounted text acc w c) (hpasses : c.Passes cs d)
    (hblank : ∀ b ∈ cs, Cursor.isIndentChar b = true) : Accounted text acc w d := by
  have hline := hpasses.line
  have hcolumn := hpasses.column
  rcases h.placed with hpast | ⟨part, hstands⟩
  · have hrest : cs ++ d.rest = [] := by rw [← hpasses.rest, hpast.rest]
    obtain ⟨rfl, hd⟩ := List.append_eq_nil_iff.mp hrest
    rw [List.length_nil] at hcolumn
    refine h.move (by omega) (.inl ⟨hd, by rw [hline]; exact hpast.line⟩) ?_ (by omega) (by omega)
    intro n line _ k ch _ _ _ hbefore
    omega
  · have hd := hstands.passes hpasses
    refine h.move (by omega) (.inr ⟨_, hd⟩) ?_ (by omega) (by omega)
    intro n line hget k ch hch hn hk hbefore
    obtain ⟨rest, more, hsplit⟩ := splitBreaks_eq_cons d.rest
    have hthis := hd.getElem?_lines hsplit
    rw [show d.line - 1 = n by omega, hget] at hthis
    obtain rfl := Option.some.inj hthis
    -- The column is one of those that were passed.
    have hpart := hstands.column
    refine .inr (.inl (hblank ch ?_))
    rw [List.getElem?_append_left (by rw [List.length_append]; omega),
      List.getElem?_append_right (by omega)] at hch
    exact List.mem_of_getElem? hch

theorem lineEnd {x : Char} (h : Accounted text acc w c) (hend : c.atLineEnd = true)
    (hread : c.read? = some (x, d)) : Accounted text acc w d := by
  obtain ⟨hline, hcolumn⟩ := Cursor.nextLine_of_read? hend hread
  have hne : c.rest ≠ [] := by
    intro hnil
    simp [Cursor.read?, hnil] at hread
  obtain ⟨part, hstands⟩ := h.standsAfter hne
  refine h.move (by omega) ((hstands.read? hend hread).imp id fun hd => ⟨[], hd⟩) ?_ (by omega)
    fun _ => hcolumn
  intro n line hget k ch hch hn hk hbefore
  obtain ⟨rest, more, hsplit⟩ := splitBreaks_eq_cons c.rest
  have hthis := hstands.getElem?_lines hsplit
  rw [show c.line - 1 = n by omega, hget] at hthis
  obtain rfl := Option.some.inj hthis
  have hpart := hstands.column
  rcases Cursor.line_of_atLineEnd hend hsplit with rfl | ⟨comment, rfl⟩
  · rw [List.append_nil, List.getElem?_eq_none (by omega)] at hch
    cases hch
  · refine .inr (.inr ?_)
    rw [List.take_append, show k + 1 - part.length = (k - part.length) + 1 by omega]
    simp

theorem styled {ch : Char} (h : Accounted text acc w c) : Accounted text acc w (c.withStyle ch) :=
  ⟨h.ordered, h.columns, h.written, h.above, h.breaks, h.points, h.awaited, h.covered,
    h.placed.imp (fun hpast => ⟨hpast.rest, hpast.line⟩) fun ⟨part, hstands⟩ =>
      ⟨part, hstands.onLine, hstands.column, hstands.line_pos⟩⟩

theorem skips (h : Accounted text acc w c) (hskips : c.Skips d) : Accounted text acc w d := by
  induction hskips with
  | refl => exact h
  | blanks hpasses hblank _ ih => exact ih (h.passes_blanks hpasses hblank)
  | lineEnd hend hread _ ih => exact ih (h.lineEnd hend hread)
  | styled _ ih => exact ih h.styled

/-- A token is added after the ones that have been given. -/
theorem pairwise_concat {t : Token} (h : Accounted text acc w c)
    (hends : ∀ a ∈ acc, a.EndsBy t.line t.initial) :
    (acc ++ [t]).Pairwise fun a b => a.EndsBy b.line b.initial := by
  refine List.pairwise_append.mpr ⟨h.ordered, List.pairwise_singleton _ _, fun a ha b hb => ?_⟩
  rw [List.mem_singleton.mp hb]
  exact hends a ha

/-- A token that is read where the cursor stands. -/
theorem token {t : Token} (h : Accounted text acc [] c) (hpasses : c.Passes cs d) (hcs : cs ≠ [])
    (hline : t.line = c.line) (hinitial : t.initial = c.column) (hfinal : t.final = d.column)
    (hwritten : t.WrittenAs cs) : Accounted text (acc ++ [t]) [] d := by
  have hne : c.rest ≠ [] := by
    rw [hpasses.rest]
    simp [hcs]
  obtain ⟨part, hstands⟩ := h.standsAfter hne
  have hd := hstands.passes hpasses
  obtain ⟨rest, more, hsplit⟩ := splitBreaks_eq_cons d.rest
  have hdline := hpasses.line
  have hcolumn := hpasses.column
  have hpart := hstands.column
  have hpos := List.length_pos_iff.mpr hcs
  have hslice : t.slice text = cs := by
    have hget := hd.line?_eq hsplit
    rw [hdline, ← hline] at hget
    rw [Token.slice, hget, hinitial, hfinal, Option.getD_some, hcolumn, hpart,
      show (((part.length + 1 + cs.length : Nat) : Int) - 1).toNat = (part ++ cs).length by
        rw [List.length_append]; omega,
      show (((part.length + 1 : Nat) : Int) - 1).toNat = part.length by omega,
      List.take_left, List.drop_left]
  have hends : ∀ a ∈ acc, a.EndsBy t.line t.initial := by
    rw [hline, hinitial]
    exact h.above
  refine ⟨h.pairwise_concat hends, ?_, ?_, ?_, .nil, List.forall_mem_nil _,
    fun _ _ => List.forall_mem_nil _, ?_, .inr ⟨_, hd⟩⟩
  · exact List.forall_mem_append.mpr ⟨h.columns, List.forall_mem_singleton.mpr (by omega)⟩
  · exact List.forall_mem_append.mpr
      ⟨h.written, List.forall_mem_singleton.mpr (.inl (hslice.symm ▸ hwritten))⟩
  · exact List.forall_mem_append.mpr ⟨fun a ha => (h.above a ha).trans (by omega),
      List.forall_mem_singleton.mpr (.inr ⟨by omega, by omega⟩)⟩
  · intro n line hget k ch hch hbefore
    by_cases hold : n + 1 < c.line ∨ n + 1 = c.line ∧ k + 1 < c.column
    · exact (h.covered n line hget k ch hch hold).append [t]
    · exact .inl ⟨t, by simp, by omega, by omega, by omega⟩

/-- The first break that waits is given. -/
theorem give {p : Span} (h : Accounted text acc (p :: w) c) :
    Accounted text (acc ++ [.atSpan .text "\n" p]) w c := by
  obtain ⟨hline, hinitial, hfinal, hblank⟩ := h.points p (by simp)
  have hbreak : (Token.atSpan .text "\n" p).isLineBreak = true := by
    simp [Token.isLineBreak, Token.atSpan, hfinal]
  refine ⟨h.pairwise_concat fun a ha => h.awaited a ha p (by simp), ?_, ?_, ?_, h.breaks.of_cons,
    fun q hq => h.points q (by simp [hq]), ?_, ?_, h.placed⟩
  · exact List.forall_mem_append.mpr
      ⟨h.columns, List.forall_mem_singleton.mpr ⟨hinitial, p.nonempty⟩⟩
  · exact List.forall_mem_append.mpr
      ⟨h.written, List.forall_mem_singleton.mpr (.inr ⟨hbreak, hblank⟩)⟩
  · exact List.forall_mem_append.mpr ⟨h.above, List.forall_mem_singleton.mpr (.inl hline)⟩
  · exact List.forall_mem_append.mpr ⟨fun a ha q hq => h.awaited a ha q (by simp [hq]),
      List.forall_mem_singleton.mpr fun q hq => .inl ((List.pairwise_cons.mp h.breaks).1 q hq)⟩
  · intro n line hget k ch hch hbefore
    exact (h.covered n line hget k ch hch hbefore).append _

private theorem giveAll {v : List Span} (h : Accounted text acc (v ++ w) c) :
    Accounted text (acc ++ v.map (.atSpan .text "\n")) w c := by
  induction v generalizing acc with
  | nil => simpa using h
  | cons p v ih =>
    have hrest := ih h.give
    rwa [List.append_assoc, List.singleton_append, ← List.map_cons] at hrest

/-- Breaks that wait may turn out to be no part of the string. -/
theorem forget (h : Accounted text acc w c) : Accounted text acc [] c :=
  ⟨h.ordered, h.columns, h.written, h.above, .nil, List.forall_mem_nil _,
    fun _ _ => List.forall_mem_nil _, h.covered, h.placed⟩

/-- Where all tokens end, a line above the cursor has nothing but blanks and a comment left. -/
theorem blankFrom {number column : Int} (h : Accounted text acc w c)
    (hends : ∀ t ∈ acc, t.EndsBy number column) (hline : number < c.line) :
    BlankFrom text number column := by
  intro line hget k ch hch hk
  unfold line? at hget
  split at hget
  · rename_i hpos
    have hcovered := h.covered (number.toNat - 1) line hget k ch hch (by omega)
    refine hcovered.resolve_left ?_
    rintro ⟨t, ht, htline, -, hfinal⟩
    have hend := hends t ht
    unfold Token.EndsBy at hend
    omega
  · cases hget

/-- The end of a line of a string waits. -/
theorem await {x : Char} (h : Accounted text acc [] c) (hend : c.atLineEnd = true)
    (hread : c.read? = some (x, d)) : Accounted text acc [c.point] d := by
  have hd := h.lineEnd hend hread
  obtain ⟨hline, -⟩ := Cursor.nextLine_of_read? hend hread
  have hne : c.rest ≠ [] := by
    intro hnil
    simp [Cursor.read?, hnil] at hread
  obtain ⟨part, hstands⟩ := h.standsAfter hne
  have hcolumn := hstands.column
  have hpoint : c.point.line < d.line ∧ 1 ≤ c.point.initial := by
    simp only [Cursor.point, Span.point]
    omega
  refine ⟨hd.ordered, hd.columns, hd.written, hd.above, List.pairwise_singleton _ _,
    List.forall_mem_singleton.mpr ⟨hpoint.1, hpoint.2, rfl, hd.blankFrom h.above hpoint.1⟩,
    fun a ha => List.forall_mem_singleton.mpr (h.above a ha), hd.covered, hd.placed⟩

theorem mem_lineStarts {first count : Nat} {p : Span} (hp : p ∈ lineStarts first count) :
    ∃ i, i < count ∧ p = Span.point ((first + i : Nat) : Int) 1 := by
  obtain ⟨i, hi, rfl⟩ := List.mem_map.mp hp
  exact ⟨i, List.mem_range.mp hi, rfl⟩

/-- Lines without text in a string wait, each with its first column. -/
theorem awaitLines (h : Accounted text acc w c) (hcolumn : c.column = 1) (hskips : c.Skips d) :
    Accounted text acc (w ++ lineStarts c.line (d.line - c.line)) d := by
  have hd := h.skips hskips
  have habove : ∀ p ∈ lineStarts c.line (d.line - c.line), ∀ a ∈ acc,
      a.EndsBy p.line p.initial := by
    intro p hp a ha
    obtain ⟨i, -, rfl⟩ := mem_lineStarts hp
    refine (h.above a ha).trans ?_
    simp only [Span.point]
    omega
  refine ⟨hd.ordered, hd.columns, hd.written, hd.above, ?_, ?_, ?_, hd.covered, hd.placed⟩
  · refine List.pairwise_append.mpr ⟨h.breaks, ?_, fun p hp q hq => ?_⟩
    · refine List.pairwise_map.mpr (List.pairwise_lt_range.imp fun hij => ?_)
      simp only [Span.point]
      omega
    · obtain ⟨i, -, rfl⟩ := mem_lineStarts hq
      have hpoint := (h.points p hp).1
      simp only [Span.point]
      omega
  · refine List.forall_mem_append.mpr ⟨hd.points, fun p hp => ?_⟩
    have hends := habove p hp
    obtain ⟨i, hi, rfl⟩ := mem_lineStarts hp
    have hline : (Span.point ((c.line + i : Nat) : Int) 1).line < d.line := by
      simp only [Span.point]
      omega
    exact ⟨hline, Int.le_refl 1, rfl, hd.blankFrom hends hline⟩
  · exact fun a ha => List.forall_mem_append.mpr
      ⟨h.awaited a ha, fun p hp => habove p hp a ha⟩

/-- Text of a string that is read where the cursor stands. -/
theorem fragment {quotes : Nat} {content : List Char} (h : Accounted text acc [] c)
    (hread : readContent quotes c = .ok (content, d)) :
    Accounted text (acc ++ Lexer.fragment content c d) [] d := by
  obtain ⟨raw, hpasses, hraw⟩ := readContent_passes hread
  unfold Lexer.fragment
  split <;> rename_i hempty
  · obtain rfl : content = [] := by simpa using hempty
    obtain rfl := eq_nil_of_undoEscapes hraw
    rw [List.append_nil]
    exact h.passes_blanks hpasses (List.forall_mem_nil _)
  · have hne : raw ≠ [] := by
      rintro rfl
      exact hempty (by simpa using length_le_of_undoEscapes hraw)
    refine h.token hpasses hne rfl rfl rfl (.inl ?_)
    rw [hraw, toList_text_tokenBetween]

/-- One character that is a token by itself. -/
theorem mark {kind : TokenKind} {ch : Char} (h : Accounted text acc [] c)
    (hpasses : c.Passes [ch] d) (hkind : kind ≠ .text) :
    Accounted text (acc ++ [.atSpan kind (String.ofList [ch]) c.point]) [] d := by
  refine h.token hpasses (by simp) rfl rfl ?_ (Token.writtenAs_of_ne_text hkind ?_)
  · rw [hpasses.column]
    rfl
  · exact String.toList_ofList

end Accounted

end Lexer

/-- The line breaks of a mode that wait. -/
def Mode.waiting : Mode → List Span
  | .blockString string => string.pending.toList
  | _ => []

namespace Lexer

variable {text : String} {acc ts : List Token} {lx next : Lexer} {c d : Cursor}

/-- A lexer whose tokens account for the text before it. Line breaks wait only on top of the
stack of modes. -/
structure Tracked (text : String) (acc : List Token) (lx : Lexer) : Prop where
  accounted : Accounted text acc lx.mode.waiting lx.cursor
  settled : ∀ m ∈ lx.modes.tail, m.waiting = []

theorem Tracked.of_settled (h : Accounted text acc [] lx.cursor)
    (hmodes : ∀ m ∈ lx.modes, m.waiting = []) : Tracked text acc lx := by
  have hmode : lx.mode.waiting = [] := by
    unfold mode
    cases hstack : lx.modes with
    | nil => rfl
    | cons m ms => exact hmodes m (by simp [hstack])
  refine ⟨?_, fun m hm => hmodes m (List.mem_of_mem_tail hm)⟩
  rw [hmode]
  exact h

/-- Where no line break waits, no mode has one. -/
theorem Tracked.waiting_eq_nil (h : Tracked text acc lx) (hmode : lx.mode.waiting = []) :
    ∀ m ∈ lx.modes, m.waiting = [] := by
  unfold mode at hmode
  have hsettled := h.settled
  cases hstack : lx.modes with
  | nil => exact List.forall_mem_nil _
  | cons m ms =>
    rw [hstack] at hmode hsettled
    exact List.forall_mem_cons.mpr ⟨hmode, hsettled⟩

theorem ownTokens_of_ordinary (h : ∀ t ∈ ts, t.kind.isLayout = false) : ownTokens ts = ts :=
  List.filter_eq_self.mpr fun t ht => by simp [h t ht]

theorem ownTokens_of_layout (h : ∀ t ∈ ts, t.kind.isLayout = true) : ownTokens ts = [] :=
  List.filter_eq_nil_iff.mpr fun t ht => by simp [h t ht]

/-- A step in code reads one token or none, and nothing else but blanks and ends of lines. -/
theorem Accounted.codeMove (h : Accounted text acc [] lx.cursor) (hmove : CodeMove lx ts next) :
    Accounted text (acc ++ ownTokens ts) [] next.cursor := by
  have hblank := h.skips (Cursor.skips_skipBlanks lx.cursor)
  cases hmove with
  | blank =>
    rw [ownTokens_of_layout (List.forall_mem_nil _), List.append_nil]
    exact hblank
  | lineEnd _ hend hread =>
    rw [ownTokens_of_layout (List.forall_mem_singleton.mpr rfl), List.append_nil]
    exact hblank.lineEnd hend hread
  | token hsimple hreads =>
    obtain ⟨cs, hpasses, hcs, hwritten⟩ := hreads.passes
    rw [ownTokens_of_ordinary (List.forall_mem_singleton.mpr (isLayout_of_isSimple hsimple))]
    exact hblank.token hpasses hcs hreads.line hreads.initial hreads.final hwritten
  | openLine hpasses hquotes =>
    rw [ownTokens_of_ordinary (List.forall_mem_singleton.mpr rfl)]
    exact hblank.token hpasses hquotes rfl rfl rfl (writtenAs_tokenBetween (by simp) _ _ _)
  | openBlock hpasses hquotes =>
    rw [ownTokens_of_ordinary (List.forall_mem_singleton.mpr rfl)]
    exact (hblank.token hpasses hquotes rfl rfl rfl (writtenAs_tokenBetween (by simp) _ _ _)).skips
      (Cursor.skips_skipLineEnd _)
  | closeHole _ hpasses =>
    rw [ownTokens_of_ordinary (List.forall_mem_singleton.mpr rfl)]
    exact hblank.mark hpasses (by simp)

theorem CodeMove.settled (h : CodeMove lx ts next) (hmodes : ∀ m ∈ lx.modes, m.waiting = []) :
    ∀ m ∈ next.modes, m.waiting = [] := by
  cases h with
  | blank | lineEnd | token => exact hmodes
  | openLine => exact List.forall_mem_cons.mpr ⟨rfl, hmodes⟩
  | openBlock _ _ _ hpending =>
    refine List.forall_mem_cons.mpr ⟨?_, hmodes⟩
    rw [Mode.waiting, hpending]
    rfl
  | closeHole => exact fun m hm => hmodes m (List.mem_of_mem_tail hm)

/-- The margin of a line is layout before the first place of the line. -/
theorem Accounted.margin {start : Lexer} (h : Accounted text acc [] lx.cursor)
    (hmargin : Margin lx ts start) :
    ownTokens ts = [] ∧ Accounted text acc [] start.cursor := by
  refine ⟨ownTokens_of_layout fun t ht => ?_, ?_⟩
  · rcases hmargin.kinds t ht with hkind | hkind <;> rw [hkind] <;> rfl
  · cases hmargin with
    | wider hread | narrower hread => exact h.skips (Cursor.readIndent_skips hread)

theorem Accounted.lineString (h : Accounted text acc [] lx.cursor)
    (hstring : lx.lineString = .ok (ts, next)) :
    Accounted text (acc ++ ts) [] next.cursor ∧
      (next.modes = .hole :: lx.modes ∨ next.modes = lx.modes.tail) := by
  simp only [Lexer.lineString] at hstring
  split at hstring
  · cases hstring
  rename_i content c hcontent
  have hfragment := h.fragment hcontent
  split at hstring
  · rename_i rest hrest
    obtain ⟨rfl, rfl⟩ := Prod.mk.inj (Except.ok.inj hstring)
    rw [← List.append_assoc]
    exact ⟨hfragment.mark (Cursor.passes_one hrest (by decide)) (by simp), .inl rfl⟩
  · rename_i rest hrest
    obtain ⟨rfl, rfl⟩ := Prod.mk.inj (Except.ok.inj hstring)
    rw [← List.append_assoc]
    exact ⟨hfragment.mark (Cursor.passes_one hrest (by decide)) (by simp), .inr rfl⟩
  · cases hstring

/-- The lines without text before a line of a block string are breaks, and the last break
waits. -/
theorem Accounted.blockIndentation {string string' : BlockString}
    (h : Accounted text acc string.pending.toList c) (hcolumn : c.column = 1)
    (hindent : Lexer.blockIndentation string c = (ts, .ok (string', d))) :
    Accounted text (acc ++ ts) string'.pending.toList d := by
  unfold Lexer.blockIndentation at hindent
  split at hindent
  · cases (Prod.mk.inj hindent).2
  rename_i level e hread
  have hlines := h.awaitLines hcolumn (Cursor.readIndent_skips hread)
  dsimp only at hindent
  split at hindent
  · cases (Prod.mk.inj hindent).2
  obtain ⟨rfl, hok⟩ := Prod.mk.inj hindent
  obtain ⟨rfl, rfl⟩ := Prod.mk.inj (Except.ok.inj hok)
  generalize string.pending.toList ++ lineStarts c.line (e.line - c.line) = breaks at hlines
  refine giveAll ?_
  rcases List.eq_nil_or_concat breaks with rfl | ⟨front, last, rfl⟩
  · exact hlines
  · simpa using hlines

theorem Accounted.blockContent {string : BlockString}
    (h : Accounted text acc string.pending.toList c)
    (hsettled : ∀ m ∈ lx.modes.tail, m.waiting = [])
    (hstring : lx.blockContent string c = .ok (ts, next)) : Tracked text (acc ++ ts) next := by
  have hgiven : Accounted text (acc ++ lineBreak string.pending) [] c :=
    giveAll (by simpa using h)
  simp only [Lexer.blockContent] at hstring
  split at hstring
  · cases hstring
  rename_i content d hcontent
  have hfragment := hgiven.fragment hcontent
  split at hstring
  · cases hstring
  · rename_i rest hrest
    obtain ⟨rfl, rfl⟩ := Prod.mk.inj (Except.ok.inj hstring)
    rw [← List.append_assoc, ← List.append_assoc]
    exact .of_settled (hfragment.mark (Cursor.passes_one hrest (by decide)) (by simp))
      (List.forall_mem_cons.mpr ⟨rfl, List.forall_mem_cons.mpr ⟨rfl, hsettled⟩⟩)
  · rename_i rest hrest
    obtain ⟨rfl, rfl⟩ := Prod.mk.inj (Except.ok.inj hstring)
    have hpasses := passes_quotes (startsWithQuotes_of_readContent hcontent hrest)
    have hne : List.replicate string.quotes '"' ≠ [] := by
      simpa using Nat.ne_of_gt string.quotes_pos
    -- Before the closing quotes a break counts only if text follows it.
    have hbefore : Accounted text (acc ++ if content.isEmpty then []
        else lineBreak string.pending ++ Lexer.fragment content c d) [] d := by
      split
      · rename_i hempty
        have hskipped := h.forget.fragment hcontent
        rwa [Lexer.fragment, if_pos hempty] at hskipped
      · rwa [← List.append_assoc]
    rw [← List.append_assoc]
    exact .of_settled
      (hbefore.token hpasses hne rfl rfl rfl (writtenAs_tokenBetween (by simp) _ _ _)) hsettled
  · rename_i hnil hhole hclose
    split at hstring
    · rename_i hread
      obtain ⟨rfl, rfl⟩ := Prod.mk.inj (Except.ok.inj hstring)
      have hend := atLineEnd_of_readContent hcontent string.quotes_pos hhole hclose
      rw [← List.append_assoc]
      exact ⟨hfragment.await hend hread, hsettled⟩
    · cases hstring

/-- Every step in a string keeps track of the text. -/
theorem Tracked.blockString {string : BlockString} {before : List Token} (h : Tracked text acc lx)
    (hmode : lx.mode = .blockString string)
    (hstring : lx.blockString string = (before, .ok (ts, next))) :
    Tracked text (acc ++ (before ++ ts)) next := by
  have haccounted : Accounted text acc string.pending.toList lx.cursor := by
    have haccounted := h.accounted
    rwa [hmode] at haccounted
  unfold Lexer.blockString at hstring
  split at hstring
  · rename_i hstart
    have hcolumn : lx.cursor.column = 1 := by
      simp only [Bool.and_eq_true, Cursor.atLineStart, beq_iff_eq] at hstart
      exact hstart.1
    split at hstring
    · cases (Prod.mk.inj hstring).2
    · rename_i hindent
      obtain ⟨rfl, hok⟩ := Prod.mk.inj hstring
      rw [← List.append_assoc]
      exact (haccounted.blockIndentation hcolumn hindent).blockContent h.settled hok
  · obtain ⟨rfl, hok⟩ := Prod.mk.inj hstring
    exact haccounted.blockContent h.settled hok

theorem Tracked.lineString (h : Tracked text acc lx) (hmode : lx.mode = .lineString)
    (hstring : lx.lineString = .ok (ts, next)) : Tracked text (acc ++ ts) next := by
  have hwaiting : lx.mode.waiting = [] := by rw [hmode]; rfl
  have hmodes := h.waiting_eq_nil hwaiting
  have haccounted := h.accounted
  rw [hwaiting] at haccounted
  obtain ⟨hnext, hstack | hstack⟩ := haccounted.lineString hstring
  · exact .of_settled hnext (hstack ▸ List.forall_mem_cons.mpr ⟨rfl, hmodes⟩)
  · exact .of_settled hnext (hstack ▸ fun m hm => hmodes m (List.mem_of_mem_tail hm))

/-- Every step in code keeps track of the text. -/
theorem Tracked.code (h : Tracked text acc lx) (hmode : lx.mode.isString = false)
    (hmove : Move lx ts next) : Tracked text (acc ++ ownTokens ts) next := by
  have hwaiting : lx.mode.waiting = [] := by
    cases hm : lx.mode <;> rw [hm] at hmode <;> first | rfl | cases hmode
  have hmodes := h.waiting_eq_nil hwaiting
  have haccounted := h.accounted
  rw [hwaiting] at haccounted
  cases hmove with
  | string hstring =>
    rw [hmode] at hstring
    cases hstring
  | inside _ hcode => exact .of_settled (haccounted.codeMove hcode) (hcode.settled hmodes)
  | @line before own start _ _ _ hmargin hcode =>
    obtain ⟨hbefore, hstart⟩ := haccounted.margin hmargin
    have hstack : start.modes = lx.modes := by cases hmargin <;> rfl
    have hown : ownTokens (before ++ own) = ownTokens own := by
      rw [ownTokens, List.filter_append, ← ownTokens, hbefore]
      rfl
    rw [hown]
    exact .of_settled (hstart.codeMove hcode) (hcode.settled (hstack ▸ hmodes))

theorem ownTokens_append (ts us : List Token) :
    ownTokens (ts ++ us) = ownTokens ts ++ ownTokens us := List.filter_append ..

/-- Every step keeps track of the text. -/
theorem Tracked.step (h : Tracked text (ownTokens acc) lx) (hstep : lx.step = .more ts next) :
    Tracked text (ownTokens (acc ++ ts)) next := by
  rw [ownTokens_append]
  have hnext := hstep
  rw [Lexer.step] at hnext
  cases hmode : lx.mode with
  | lineString =>
    rw [hmode] at hnext
    obtain ⟨own, last, hstring, rfl, rfl⟩ := eq_of_stepTo hnext
    rw [ownTokens_of_ordinary (lineString_cases hmode hstring).ordinary]
    have hlast := h.lineString hmode hstring
    exact ⟨hlast.accounted, hlast.settled⟩
  | blockString string =>
    rw [hmode] at hnext
    cases hstring : lx.blockString string with
    | mk before result =>
      simp only [hstring] at hnext
      obtain ⟨own, last, rfl, rfl, rfl⟩ := eq_of_stepTo hnext
      rw [ownTokens_of_ordinary (blockString_cases hstring).ordinary]
      have hlast := h.blockString hmode hstring
      exact ⟨hlast.accounted, hlast.settled⟩
  | code | hole =>
    obtain ⟨last, hmove, rfl⟩ := step_more hstep
    have hlast := h.code (by rw [hmode]; rfl) hmove
    exact ⟨hlast.accounted, hlast.settled⟩

theorem Ending.skips (h : Ending lx c) : lx.cursor.Skips c ∧ c.rest = [] := by
  cases h with
  | here hend => exact ⟨.refl _, by simpa [Cursor.canRead] using hend⟩
  | blankLines _ hread hend =>
    exact ⟨Cursor.readIndent_skips hread, by simpa [Cursor.canRead] using hend⟩

/-- Where no text is left, every place of the source is before the cursor. -/
theorem Accounted.before_end (h : Accounted text acc [] c) (hrest : c.rest = []) {n k : Nat}
    {cs : List Char} {ch : Char} (hline : (lines text.toList)[n]? = some cs)
    (hch : cs[k]? = some ch) : n + 1 < c.line ∨ n + 1 = c.line ∧ k + 1 < c.column := by
  have hn : n < (lines text.toList).length := (List.getElem?_eq_some_iff.mp hline).1
  have hk : k < cs.length := (List.getElem?_eq_some_iff.mp hch).1
  rcases h.placed with hpast | ⟨part, hstands⟩
  · have hpast : (lines text.toList).length < c.line := hpast.line
    omega
  · obtain ⟨last, more, hsplit, hsource⟩ := hstands.onLine
    rw [hrest] at hsplit
    obtain ⟨rfl, rfl⟩ := List.cons.inj hsplit
    have hget := hstands.getElem?_lines (by rw [hrest]; rfl)
    have hlength := congrArg List.length hsource
    have hcolumn := hstands.column
    have hpos := hstands.line_pos
    have hlines : (splitBreaks (normalizeBreaks text.toList)).length = (lines text.toList).length :=
      rfl
    rw [List.length_drop, hlines, List.length_singleton] at hlength
    by_cases hlast : n + 1 < c.line
    · exact .inl hlast
    · have hnumber : c.line - 1 = n := by omega
      rw [hnumber, hline, List.append_nil] at hget
      obtain rfl := Option.some.inj hget
      omega

/-- At the end of the source all of the text is accounted for. -/
theorem Tracked.rebuilds (h : Tracked text (ownTokens acc) lx) (hstep : lx.step = .done ts) :
    Rebuilds text (ownTokens (acc ++ ts)) := by
  obtain ⟨hmode, c, hending, rfl⟩ := step_done hstep
  obtain ⟨hskips, hrest⟩ := hending.skips
  have haccounted := h.accounted
  rw [hmode] at haccounted
  have hend := haccounted.skips hskips
  have hlayout : ∀ t ∈ (if lx.lineOpen then [Token.atSpan .lineEnd "\n" c.point] else [])
      ++ lx.indents.dropLast.map (fun _ => Token.atSpan .dedent "" c.point)
      ++ [Token.atSpan .sourceEnd "" c.point], t.kind.isLayout = true := by
    refine List.forall_mem_append.mpr ⟨List.forall_mem_append.mpr ⟨?_, ?_⟩,
      List.forall_mem_singleton.mpr rfl⟩
    · split
      · exact List.forall_mem_singleton.mpr rfl
      · exact List.forall_mem_nil _
    · exact List.forall_mem_map.mpr fun _ _ => rfl
  rw [ownTokens_append, ownTokens_of_layout hlayout, List.append_nil]
  exact ⟨hend.ordered, hend.columns, hend.written, fun n line hline k ch hch =>
    hend.covered n line hline k ch hch (hend.before_end hrest hline hch)⟩

end Lexer

/-- The tokens of a text rebuild it. -/
theorem tokenize_rebuilds {text : String} {tokens : List Token} (h : tokenize text = .ok tokens) :
    Rebuilds text (ownTokens tokens) := by
  have hlisting : (tokensOf text).fault = none →
      Rebuilds text (ownTokens (tokensOf text).items) := by
    refine Lexer.invariant_of_tokens (P := fun acc lx => Lexer.Tracked text (ownTokens acc) lx)
      (Q := fun listing => listing.fault = none → Rebuilds text (ownTokens listing.items))
      Lexer.Tracked.step ?_ ?_ ?_
    · intro acc lx ts hacc hstep _
      exact hacc.rebuilds hstep
    · intro acc lx ts e _ _ hfault
      cases hfault
    · exact .of_settled (.ofText text) (List.forall_mem_singleton.mpr rfl)
  obtain ⟨hitems, hfault⟩ := Listing.eq_of_toExcept h
  rw [← hitems]
  exact hlisting hfault

/-- A block string with an escape, a comment, an empty line and a hole, and the empty text. -/
theorem rebuilds_blockString :
    ∃ tokens, tokenize "a = \"\"\"\nb\\tc # d\n\n\x7be\x7d\"\"\" # f\r\n<< \"\"" = .ok tokens ∧
      tokens.length = 15 ∧ Rebuilds
        "a = \"\"\"\nb\\tc # d\n\n\x7be\x7d\"\"\" # f\r\n<< \"\"" (ownTokens tokens) := by
  have hlength : (tokenize "a = \"\"\"\nb\\tc # d\n\n\x7be\x7d\"\"\" # f\r\n<< \"\"").toOption.map
      List.length = some 15 := by decide +kernel
  cases h : tokenize "a = \"\"\"\nb\\tc # d\n\n\x7be\x7d\"\"\" # f\r\n<< \"\"" with
  | error e =>
    rw [h] at hlength
    cases hlength
  | ok tokens =>
    rw [h] at hlength
    exact ⟨tokens, rfl, Option.some.inj hlength, tokenize_rebuilds h⟩

end DialogScript
