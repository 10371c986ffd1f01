import DialogScript.Proofs.Lexing.Annotations
import DialogScript.Proofs.Lexing.Locations

/-!
# Places in the text

Every token and every error of the lexer is about a line of the text, with one exception. A block
string that is not closed is reported where the text ends; if the text ends in a comment, that is
the line after the last one (`SyntaxError.IsPastEnd`).

Away from the start of a line the cursor cannot be past such a comment. So the invariant
(`Lexer.Anchored`) says that a string of one line and a hole are never left at the start of a line,
and the tokens that can stand past the last line are those that close blocks or end the source.
-/

namespace DialogScript

open Text

/-- A line of a text and a column, which counts from 1 and may lie past the end of the line. -/
structure Text.HasPlace (text : String) (line column : Int) : Prop where
  line_pos : 1 ≤ line
  line_le : line ≤ (lines text.toList).length
  column_pos : 1 ≤ column

/-- A span starts at a place of a text. -/
def Span.InText (text : String) (s : Span) : Prop := HasPlace text s.line s.initial

/-- A token starts at a place of a text. -/
def Token.InText (text : String) (t : Token) : Prop := HasPlace text t.line t.initial

/-- The error of a block string that is not closed in a text which ends in a comment. -/
structure SyntaxError.IsPastEnd (text : String) (e : SyntaxError) : Prop where
  cause : e.cause = .unclosedString
  span : e.span = Span.point ((lines text.toList).length + 1) 1
  comment : ∃ last, (lines text.toList).getLast? = some last ∧ '#' ∈ last

/-- An error is about a place of a text, or about the end of a comment that ends the text. -/
def SyntaxError.PointsInto (text : String) (e : SyntaxError) : Prop :=
  e.span.InText text ∨ e.IsPastEnd text

variable {text : String}

theorem Span.InText.join {s : Span} (h : s.InText text) (t : Span) : (s.join t).InText text := by
  rw [InText, s.join_line, s.join_initial]
  exact h

theorem Span.InText.after {s : Span} (h : s.InText text) : s.after.InText text :=
  ⟨h.line_pos, h.line_le, Int.le_trans h.column_pos (Int.le_of_lt s.nonempty)⟩

theorem Token.InText.extent {t : Token} (h : t.InText text) (hmade : t.WellMade) :
    t.extent.InText text := by
  rw [Token.extent, dif_pos hmade.columns]
  exact h

namespace Cursor

variable {c d : Cursor} {cs : List Char} {e : SyntaxError}

/-- The cursor stands on a line of a text. -/
def Within (text : String) (c : Cursor) : Prop :=
  ∃ part, c.StandsAfter (normalizeBreaks text.toList) part

theorem Within.point (h : c.Within text) : c.point.InText text := by
  obtain ⟨part, hstands⟩ := h
  have hcolumn := hstands.column
  have hle : c.line ≤ (lines text.toList).length := hstands.line_le
  have hpos : 1 ≤ c.column := by omega
  exact ⟨Int.ofNat_le.mpr hstands.line_pos, Int.ofNat_le.mpr hle, Int.ofNat_le.mpr hpos⟩

theorem Within.passes (h : c.Within text) (hpasses : c.Passes cs d) : d.Within text := by
  obtain ⟨part, hstands⟩ := h
  exact ⟨part ++ cs, hstands.passes hpasses⟩

theorem Within.tokenBetween (h : c.Within text) (kind : TokenKind) (cs : List Char) (d : Cursor) :
    (Lexer.tokenBetween kind cs c d).InText text := h.point

theorem Within.fragment (h : c.Within text) (cs : List Char) (d : Cursor) :
    ∀ t ∈ Lexer.fragment cs c d, t.InText text := by
  unfold Lexer.fragment
  split
  · exact List.forall_mem_nil _
  · exact List.forall_mem_singleton.mpr (h.tokenBetween _ _ _)

/-- Where text is left, the cursor stands on a line of the text. -/
theorem Located.within (h : c.Located (normalizeBreaks text.toList)) (hne : c.rest ≠ []) :
    c.Within text := h.standsAfter hne

/-- Where text is left after a piece of a line, both ends of the piece are on a line of the text. -/
theorem Located.within_of_passes (h : c.Located (normalizeBreaks text.toList))
    (hpasses : c.Passes cs d) (hne : d.rest ≠ []) : c.Within text ∧ d.Within text := by
  have hc : c.Within text := h.within fun hnil => hne <| by
    have hrest := hpasses.rest
    rw [hnil] at hrest
    exact (List.append_eq_nil_iff.mp hrest.symm).2
  exact ⟨hc, hc.passes hpasses⟩

theorem Located.one_le_column {source : List Char} (h : c.Located source) : 1 ≤ c.column := by
  rcases h with hpast | ⟨part, hstands⟩
  · exact Nat.le_of_eq hpast.column.symm
  · have := hstands.column
    omega

/-- Within a line the cursor is not past the comment that ends the text. -/
theorem Located.within_of_column (h : c.Located (normalizeBreaks text.toList))
    (hcolumn : c.column ≠ 1) : c.Within text :=
  h.resolve_left fun hpast => hcolumn hpast.column

/-- The lines before the one that a located cursor stands on are lines of the text. -/
theorem Located.line_le {source : List Char} (h : c.Located source) :
    c.line ≤ (splitBreaks source).length + 1 := by
  rcases h with hpast | ⟨part, hstands⟩
  · exact Nat.le_of_eq hpast.line
  · exact Nat.le_succ_of_le hstands.line_le

private theorem rest_ne_nil_of_passes (h : c.Passes cs d) (hcs : cs ≠ []) : c.rest ≠ [] := by
  rw [h.rest]
  exact List.append_ne_nil_of_left_ne_nil hcs _

/-- Indentation that mixes styles is an error at the place where reading ends. -/
theorem readIndent_error {limit : Option Nat} (h : c.readIndent limit = (.error e, d)) :
    e.span = d.point ∧ d.rest ≠ [] := by
  fun_induction readIndent limit c with
  | case1 | case2 | case4 | case8 => cases (Prod.mk.inj h).1
  | case3 _ _ _ _ _ _ _ ih => exact ih h
  | case5 _ _ _ _ _ _ _ _ _ _ _ ih => exact ih h
  | case6 _ _ _ _ _ _ _ _ _ _ _ ih => exact ih h
  | case7 c x next hread =>
    obtain ⟨he, rfl⟩ := Prod.mk.inj h
    exact ⟨(Except.error.inj he) ▸ rfl, rest_ne_nil_of_read? hread⟩

end Cursor

namespace Lexer

variable {lx next : Lexer} {ts before : List Token} {c d : Cursor} {e : SyntaxError}

/-! ### Parts of the lexer -/

/-- A number without digits after its point is an error on its line. -/
theorem number_error (hc : c.Within text) (h : number c = .error e) : e.span.InText text := by
  have hwhole := Cursor.passes_takeWhile (p := isAsciiDigit) c (by decide)
  simp only [number] at h
  split at h
  · rename_i more hmore
    split at h
    · have hpoint := Cursor.passes_one hmore (by decide)
      have hfraction := Cursor.passes_takeWhile (p := isAsciiDigit)
        ((c.takeWhile isAsciiDigit).2.forward 1 more) (by decide)
      obtain rfl := Except.error.inj h
      exact (hc.passes ((hwhole.trans hpoint).trans hfraction)).point
    · cases h
  · cases h

private theorem content_error {quotes column place : Nat} {cs : List Char} {found : Option Char}
    (h : content quotes column cs = .error (place, found)) : column ≤ place ∧ cs ≠ [] := by
  fun_induction content quotes column cs with
  | case1 | case4 | case6 | case7 => cases h
  | case2 | case3 =>
    obtain ⟨rfl, -⟩ := Prod.mk.inj (Except.error.inj h)
    exact ⟨Nat.le_refl _, by simp⟩
  | case5 _ _ _ _ _ _ hrec ih | case8 _ _ _ _ _ _ _ hrec ih =>
    obtain rfl := Except.error.inj h
    exact ⟨by have := (ih hrec).1; omega, by simp⟩

/-- An invalid escape is an error on its line. -/
theorem readContent_error {quotes : Nat} (hc : c.rest ≠ [] → c.Within text)
    (h : readContent quotes c = .error e) : e.span.InText text := by
  unfold readContent at h
  split at h
  · cases h
  · rename_i place found hcontent
    obtain rfl := Except.error.inj h
    obtain ⟨hplace, hne⟩ := content_error hcontent
    have hstart := (hc hne).point
    have hcolumn := Int.le_trans hstart.column_pos (Int.ofNat_le.mpr hplace)
    exact Span.InText.join (s := Span.point c.line place)
      ⟨hstart.line_pos, hstart.line_le, hcolumn⟩ _

/-! ### The invariant -/

/-- The cursor is on a line of the text or past a comment at its end, where neither a string of
one line nor a hole is open; the line breaks that wait have places in the text. -/
structure Anchored (text : String) (lx : Lexer) : Prop where
  located : lx.cursor.Located (normalizeBreaks text.toList)
  column : lx.cursor.column = 1 → lx.mode ≠ .hole ∧ lx.mode ≠ .lineString
  waiting : ∀ m ∈ lx.modes, ∀ s ∈ m.waiting, s.InText text

theorem Anchored.of_code (hlocated : lx.cursor.Located (normalizeBreaks text.toList))
    (hmode : lx.mode = .code) (hwaiting : ∀ m ∈ lx.modes, ∀ s ∈ m.waiting, s.InText text) :
    lx.Anchored text :=
  ⟨hlocated, fun _ => by simp [hmode], hwaiting⟩

/-- A part of the lexer gives tokens of the text and keeps the invariant, or an error that points
into the text. -/
def Points (text : String) : Except SyntaxError (List Token × Lexer) → Prop
  | .ok (ts, next) => (∀ t ∈ ts, t.InText text) ∧ Anchored text next
  | .error e => e.PointsInto text

theorem Anchored.codeMove (h : lx.Anchored text) (hmode : lx.mode.isString = false)
    (hmove : CodeMove lx ts next) : (∀ t ∈ ts, t.InText text) ∧ Anchored text next := by
  have hlocated := h.located.reaches hmove.reaches
  have hblank := h.located.reaches (reaches_skipBlanks lx.cursor)
  have hwithin := hblank.within
  have hone := hblank.one_le_column
  cases hmove with
  | blank =>
    refine ⟨List.forall_mem_nil _, hlocated, fun hcolumn => h.column ?_, h.waiting⟩
    have hle := (Cursor.passes_skipBlanks lx.cursor).column_le
    have hstart := h.located.one_le_column
    change lx.cursor.skipBlanks.column = 1 at hcolumn
    omega
  | lineEnd hhole _ hread =>
    refine ⟨List.forall_mem_singleton.mpr (hwithin (Cursor.rest_ne_nil_of_read? hread)).point,
      hlocated, fun _ => ⟨hhole, fun hline => ?_⟩, h.waiting⟩
    rw [show lx.mode = .lineString from hline] at hmode
    cases hmode
  | token _ hreads =>
    obtain ⟨cs, hpasses, hcs, -⟩ := hreads.passes
    have hpoint := (hwithin (Cursor.rest_ne_nil_of_passes hpasses hcs)).point
    refine ⟨List.forall_mem_singleton.mpr ?_, hlocated, fun hcolumn => ?_, h.waiting⟩
    · rw [Token.InText, hreads.line, hreads.initial]
      exact hpoint
    · exact absurd hcolumn (Nat.ne_of_gt (Nat.lt_of_le_of_lt hone (hpasses.column_lt hcs)))
  | openLine hpasses hquotes =>
    refine ⟨List.forall_mem_singleton.mpr ((hwithin
      (Cursor.rest_ne_nil_of_passes hpasses hquotes)).tokenBetween _ _ _), hlocated,
      fun hcolumn => ?_, List.forall_mem_cons.mpr ⟨List.forall_mem_nil _, h.waiting⟩⟩
    exact absurd hcolumn (Nat.ne_of_gt (Nat.lt_of_le_of_lt hone (hpasses.column_lt hquotes)))
  | openBlock hpasses hquotes _ hpending =>
    refine ⟨List.forall_mem_singleton.mpr ((hwithin
      (Cursor.rest_ne_nil_of_passes hpasses hquotes)).tokenBetween _ _ _), hlocated,
      fun _ => ⟨by simp [mode, push], by simp [mode, push]⟩,
      List.forall_mem_cons.mpr ⟨?_, h.waiting⟩⟩
    rw [Mode.waiting, hpending]
    exact List.forall_mem_nil _
  | closeHole _ hpasses =>
    refine ⟨List.forall_mem_singleton.mpr (hwithin
      (Cursor.rest_ne_nil_of_passes hpasses (by simp))).point, hlocated, fun hcolumn => ?_,
      fun m hm => h.waiting m (List.mem_of_mem_tail hm)⟩
    exact absurd hcolumn (Nat.ne_of_gt (Nat.lt_of_le_of_lt hone (hpasses.column_lt (by simp))))

theorem Anchored.code (h : lx.Anchored text) (hmode : lx.mode.isString = false) :
    Points text lx.code := by
  cases hcode : lx.code with
  | ok r => exact h.codeMove hmode (code_cases hcode)
  | error e =>
    have hwithin := (h.located.reaches (reaches_skipBlanks lx.cursor)).within
    refine .inl ?_
    simp only [Lexer.code] at hcode
    split at hcode
    · cases hcode
    rename_i ch rest hrest
    have hwithin := hwithin (by simp [hrest])
    split at hcode
    · split at hcode
      · exact Except.error.inj hcode ▸ hwithin.point
      · split at hcode <;> cases hcode
    split at hcode
    · split at hcode
      · cases hcode
      · rename_i hnumber
        exact Except.error.inj hcode ▸ number_error hwithin hnumber
    split at hcode
    · cases hcode
    split at hcode
    · simp only [openString] at hcode
      split at hcode
      · split at hcode
        · exact Except.error.inj hcode ▸ hwithin.point.join _
        · cases hcode
      · split at hcode <;> cases hcode
    split at hcode
    · cases hcode
    · split at hcode
      · cases hcode
      · exact Except.error.inj hcode ▸ hwithin.point

theorem Anchored.lineString (h : lx.Anchored text) (hmode : lx.mode = .lineString) :
    Points text lx.lineString := by
  have hstart : lx.cursor.Within text :=
    h.located.within_of_column fun hcolumn => (h.column hcolumn).2 hmode
  have hone := h.located.one_le_column
  unfold Lexer.lineString
  split
  · rename_i hcontent
    exact .inl (readContent_error (fun _ => hstart) hcontent)
  rename_i content c hcontent
  obtain ⟨raw, hpasses, -⟩ := readContent_passes hcontent
  have hc := hstart.passes hpasses
  split
  · rename_i rest hrest
    have hnext := hc.passes (Cursor.passes_one hrest (by decide))
    refine ⟨List.forall_mem_append.mpr ⟨hstart.fragment _ _,
      List.forall_mem_singleton.mpr hc.point⟩, .inr hnext, fun hcolumn => ?_,
      List.forall_mem_cons.mpr ⟨List.forall_mem_nil _, h.waiting⟩⟩
    have := hpasses.column_le
    simp only [push, moveTo, Cursor.forward] at hcolumn
    omega
  · rename_i rest hrest
    have hnext := hc.passes (Cursor.passes_one hrest (by decide))
    refine ⟨List.forall_mem_append.mpr ⟨hstart.fragment _ _,
      List.forall_mem_singleton.mpr hc.point⟩, .inr hnext, fun hcolumn => ?_,
      fun m hm => h.waiting m (List.mem_of_mem_tail hm)⟩
    have := hpasses.column_le
    simp only [pop, moveTo, Cursor.forward] at hcolumn
    omega
  · exact .inl hc.point

/-- The line breaks before a line of a block string are on lines of the text. -/
theorem inText_lineStarts {p : Span} (hc : 1 ≤ c.line)
    (hd : d.Located (normalizeBreaks text.toList)) (hp : p ∈ lineStarts c.line (d.line - c.line)) :
    p.InText text := by
  obtain ⟨i, hi, rfl⟩ := Accounted.mem_lineStarts hp
  have hle : d.line ≤ (lines text.toList).length + 1 := hd.line_le
  have hcount : c.line + i ≤ (lines text.toList).length := by omega
  exact ⟨Int.ofNat_le.mpr (Nat.le_add_right_of_le hc), Int.ofNat_le.mpr hcount, Int.le_refl 1⟩

/-- The line breaks that a block string passes are in the text, and so is a wrong indentation. -/
theorem inText_blockIndentation {string : BlockString} {result : Except SyntaxError _}
    (hc : c.Located (normalizeBreaks text.toList)) (hcan : c.rest ≠ [])
    (hpending : ∀ s ∈ string.pending.toList, s.InText text)
    (h : blockIndentation string c = (ts, result)) :
    (∀ t ∈ ts, t.InText text) ∧
      match result with
      | .error e => e.span.InText text
      | .ok (string', d) => d.Located (normalizeBreaks text.toList) ∧
          ∀ s ∈ string'.pending.toList, s.InText text := by
  obtain ⟨part, hstands⟩ := hc.within hcan
  unfold blockIndentation at h
  split at h
  · rename_i e d hread
    obtain ⟨rfl, rfl⟩ := Prod.mk.inj h
    obtain ⟨hspan, hne⟩ := Cursor.readIndent_error hread
    refine ⟨List.forall_mem_nil _, ?_⟩
    dsimp only
    rw [hspan]
    exact ((hc.reaches (Cursor.readIndent_reaches hread)).within hne).point
  rename_i level d hread
  have hd := hc.reaches (Cursor.readIndent_reaches hread)
  have hbreaks : ∀ s ∈ string.pending.toList ++ lineStarts c.line (d.line - c.line),
      s.InText text :=
    List.forall_mem_append.mpr
      ⟨hpending, fun s hs => inText_lineStarts hstands.line_pos hd hs⟩
  have htexts : ∀ t ∈ (string.pending.toList
      ++ lineStarts c.line (d.line - c.line)).dropLast.map (Token.atSpan .text "\n"),
      t.InText text :=
    List.forall_mem_map.mpr fun s hs => hbreaks s (List.dropLast_subset _ hs)
  dsimp only at h
  split at h
  · rename_i hwrong
    obtain ⟨rfl, rfl⟩ := Prod.mk.inj h
    have hne : d.rest ≠ [] := by
      intro hnil
      simp [Cursor.canRead, hnil] at hwrong
    exact ⟨htexts, (hd.within hne).point⟩
  · obtain ⟨rfl, rfl⟩ := Prod.mk.inj h
    exact ⟨htexts, hd, fun s hs => hbreaks s (List.mem_of_getLast? (Option.mem_toList.mp hs))⟩

/-- An unclosed string points after the content read last, which is in the text, or empty and after
the comment that ends the text. -/
theorem pointsInto_unclosedString {cs : List Char}
    (hc : c.Located (normalizeBreaks text.toList)) (hpasses : c.Passes cs d) :
    SyntaxError.PointsInto text ⟨.unclosedString, d.point⟩ := by
  rcases hc with hpast | hwithin
  · have hraw := hpasses.rest
    rw [hpast.rest] at hraw
    obtain ⟨rfl, -⟩ := List.append_eq_nil_iff.mp hraw.symm
    refine .inr ⟨rfl, ?_, hpast.comment⟩
    rw [Cursor.point, hpasses.line, hpasses.column, hpast.line, hpast.column]
    rfl
  · exact .inl (Cursor.Within.passes hwithin hpasses).point

private theorem points_blockContent {string : BlockString}
    (hbelow : ∀ m ∈ lx.modes.tail, ∀ s ∈ m.waiting, s.InText text)
    (hc : c.Located (normalizeBreaks text.toList))
    (hpending : ∀ s ∈ string.pending.toList, s.InText text) :
    Points text (lx.blockContent string c) := by
  have hone := hc.one_le_column
  unfold Lexer.blockContent
  split
  · rename_i hcontent
    exact .inl (readContent_error hc.within hcontent)
  rename_i content d hcontent
  obtain ⟨raw, hpasses, -⟩ := readContent_passes hcontent
  have hreach := Cursor.Reaches.of_passes hpasses
  have hd := hc.reaches hreach
  split
  · exact pointsInto_unclosedString hc hpasses
  · rename_i rest hrest
    obtain ⟨hwithin, hend⟩ := hc.within_of_passes hpasses (by simp [hrest])
    refine ⟨List.forall_mem_append.mpr ⟨List.forall_mem_append.mpr
      ⟨List.forall_mem_map.mpr hpending, hwithin.fragment _ _⟩,
      List.forall_mem_singleton.mpr hend.point⟩,
      .inr (hend.passes (Cursor.passes_one hrest (by decide))), fun hcolumn => ?_,
      List.forall_mem_cons.mpr ⟨List.forall_mem_nil _,
        List.forall_mem_cons.mpr ⟨List.forall_mem_nil _, hbelow⟩⟩⟩
    have := hd.one_le_column
    simp only [replaceTop, push, pop, moveTo, Cursor.forward] at hcolumn
    omega
  · rename_i rest hrest
    obtain ⟨hwithin, hend⟩ := hc.within_of_passes hpasses (by simp [hrest])
    have hquotes := passes_quotes (startsWithQuotes_of_readContent hcontent hrest)
    refine ⟨List.forall_mem_append.mpr ⟨?_, List.forall_mem_singleton.mpr
      (hend.tokenBetween _ _ _)⟩, .inr (hend.passes hquotes), fun hcolumn => ?_, hbelow⟩
    · split
      · exact List.forall_mem_nil _
      · exact List.forall_mem_append.mpr
          ⟨List.forall_mem_map.mpr hpending, hwithin.fragment _ _⟩
    · have := hd.one_le_column
      have := string.quotes_pos
      simp only [pop, moveTo, Cursor.forward] at hcolumn
      omega
  · rename_i hne _ _
    obtain ⟨hwithin, hend⟩ := hc.within_of_passes hpasses hne
    split
    · rename_i hread
      refine ⟨List.forall_mem_append.mpr
        ⟨List.forall_mem_map.mpr hpending, hwithin.fragment _ _⟩,
        hd.reaches (.of_read? hread), fun _ => ⟨by simp [mode, replaceTop, push],
          by simp [mode, replaceTop, push]⟩, List.forall_mem_cons.mpr ⟨?_, hbelow⟩⟩
      exact List.forall_mem_singleton.mpr hend.point
    · exact .inl hend.point

private theorem points_blockString {string : BlockString} (h : lx.Anchored text)
    (hmode : lx.mode = .blockString string) :
    (∀ t ∈ (lx.blockString string).1, t.InText text) ∧ Points text (lx.blockString string).2 := by
  have hmodes := modes_eq_of_mode hmode (by simp)
  have hwaiting := h.waiting
  rw [hmodes, List.forall_mem_cons] at hwaiting
  obtain ⟨hpending, hbelow⟩ := hwaiting
  unfold Lexer.blockString
  split
  · rename_i hstart
    have hcan : lx.cursor.rest ≠ [] := by
      intro hnil
      simp [Cursor.canRead, hnil] at hstart
    split
    · rename_i hindent
      obtain ⟨hbreaks, herror⟩ := inText_blockIndentation h.located hcan hpending hindent
      exact ⟨hbreaks, .inl herror⟩
    · rename_i hindent
      obtain ⟨hbreaks, hd, hlast⟩ := inText_blockIndentation h.located hcan hpending hindent
      exact ⟨hbreaks, points_blockContent hbelow hd hlast⟩
  · exact ⟨List.forall_mem_nil _, points_blockContent hbelow h.located hpending⟩

/-- The blocks that a line opens or closes are told from the line, and so is a width that fits no
block. -/
theorem Anchored.lineIndentation (h : lx.Anchored text) (hmode : lx.mode = .code) :
    (∀ t ∈ lx.lineIndentation.1, t.InText text) ∧
      match lx.lineIndentation.2 with
      | .error e => e.span.InText text
      | .ok next => next.Anchored text ∧ next.mode = .code := by
  unfold Lexer.lineIndentation
  split
  · rename_i e c hread
    obtain ⟨hspan, hne⟩ := Cursor.readIndent_error hread
    refine ⟨List.forall_mem_nil _, ?_⟩
    dsimp only
    rw [hspan]
    exact ((h.located.reaches (Cursor.readIndent_reaches hread)).within hne).point
  rename_i level c hread
  have hc := h.located.reaches (Cursor.readIndent_reaches hread)
  have hnext : ∀ indents, Anchored text { lx.moveTo c with indents := indents } ∧
      ({ lx.moveTo c with indents := indents } : Lexer).mode = .code :=
    fun _ => ⟨.of_code hc hmode h.waiting, hmode⟩
  dsimp only
  split
  · exact ⟨List.forall_mem_nil _, hnext lx.indents⟩
  rename_i hread
  have hwithin := hc.within fun hnil => hread (by simp [Cursor.canRead, hnil])
  have hpoint := hwithin.point
  have hdedents : ∀ t ∈ (closeBlocks level lx.indents).1.map fun _ =>
      Token.atSpan .dedent "" (Span.point c.line (level + 1)), t.InText text :=
    List.forall_mem_map.mpr fun _ _ => ⟨hpoint.line_pos, hpoint.line_le, by
      simp only [Token.atSpan, Span.point]
      omega⟩
  split
  · refine ⟨List.forall_mem_singleton.mpr ⟨hpoint.line_pos, hpoint.line_le, ?_⟩, hnext _⟩
    dsimp only
    omega
  · split
    · exact ⟨hdedents, hnext _⟩
    · exact ⟨hdedents, hpoint⟩

/-! ### Steps -/

/-- What the steps of the lexer come to: tokens of the text, apart from those that close blocks at
the end of the source, and errors that point into the text. -/
def StepPoints (text : String) : LexerStep → Prop
  | .more ts next => (∀ t ∈ ts, t.InText text) ∧ Anchored text next
  | .done ts => ∀ t ∈ ts, t.isClosing = false → t.InText text
  | .fail ts e => (∀ t ∈ ts, t.InText text) ∧ e.PointsInto text

private theorem stepPoints_stepTo (hbefore : ∀ t ∈ before, t.InText text)
    {result : Except SyntaxError (List Token × Lexer)} (h : Points text result) (lx : Lexer) :
    StepPoints text (stepTo lx before result) := by
  cases result with
  | error e => exact ⟨hbefore, h⟩
  | ok r =>
    obtain ⟨htokens, hlocated, hcolumn, hwaiting⟩ := h
    exact ⟨List.forall_mem_append.mpr ⟨hbefore, htokens⟩, hlocated, hcolumn, hwaiting⟩

theorem Anchored.codeStep (h : lx.Anchored text) (hmode : lx.mode.isString = false)
    (hopen : lx.mode = .code → lx.lineOpen = true → lx.cursor.column ≠ 1)
    (hbefore : ∀ t ∈ before, t.InText text) : StepPoints text (Lexer.codeStep lx before) := by
  unfold Lexer.codeStep
  split
  · exact stepPoints_stepTo hbefore (h.code hmode) lx
  unfold finish
  split
  · rename_i hcode
    intro t ht hkind
    simp only [List.mem_append, List.mem_map, List.mem_singleton] at ht
    rcases ht with ((ht | ht) | ⟨_, -, rfl⟩) | rfl
    · exact hbefore t ht
    · -- Only an open line has to be ended, and such a line is a line of the text.
      split at ht
      · rename_i hline
        rw [List.mem_singleton.mp ht]
        exact (h.located.within_of_column (hopen hcode hline)).point
      · cases ht
    · cases hkind
    · cases hkind
  · rename_i hcode
    have hhole : lx.mode = .hole := by
      cases hm : lx.mode <;> simp_all [Mode.isString]
    have hwithin := h.located.within_of_column fun hcolumn => (h.column hcolumn).1 hhole
    exact ⟨hbefore, .inl hwithin.point⟩

theorem Anchored.step {acc : List Token} (h : lx.Anchored text) (hlaid : LaidOut text acc lx) :
    StepPoints text lx.step := by
  unfold Lexer.step
  split
  · rename_i hmode
    exact stepPoints_stepTo (List.forall_mem_nil _) (h.lineString hmode) lx
  · rename_i string hmode
    obtain ⟨hbefore, hpoints⟩ := points_blockString h hmode
    exact stepPoints_stepTo hbefore hpoints lx
  · rename_i hmode
    exact h.codeStep (by rw [hmode]; rfl) (by simp [hmode]) (List.forall_mem_nil _)
  · rename_i hmode
    have hopen := hlaid.lineOpen hmode
    split
    · rename_i hstart
      have hindent := h.lineIndentation hmode
      split
      · rename_i before next hlines
        rw [hlines] at hindent
        obtain ⟨hbefore, hnext, hcode⟩ := hindent
        refine hnext.codeStep (by rw [hcode]; rfl) (fun _ hline => ?_) hbefore
        -- A line that starts here is not open before its first token.
        have hsame : next.lineOpen = lx.lineOpen := by
          rcases lineIndentation_cases hlines with hmargin | ⟨_, _, -, -, -, rfl⟩
          · cases hmargin <;> rfl
          · rfl
        rw [hsame, hopen, (Bool.and_eq_true_iff.mp hstart).1] at hline
        cases hline
      · rename_i hlines
        rw [hlines] at hindent
        exact ⟨hindent.1, .inl hindent.2⟩
    · refine h.codeStep (by rw [hmode]; rfl) (fun _ hline hcolumn => ?_) (List.forall_mem_nil _)
      rw [hopen, Cursor.atLineStart, hcolumn] at hline
      cases hline

private theorem anchored_ofText (text : String) : Anchored text (ofText text) := by
  refine .of_code (Cursor.located_ofText text) rfl ?_
  exact List.forall_mem_singleton.mpr (List.forall_mem_nil _)

end Lexer

/-- The tokens of a text stand in it, apart from those that close blocks or end the source where no
fault comes before that, and its fault points into it. -/
theorem inText_tokensOf (text : String) :
    (∀ t ∈ (tokensOf text).items, t.isClosing = false ∨ (tokensOf text).fault ≠ none →
      t.InText text) ∧ ∀ e, (tokensOf text).fault = some e → e.PointsInto text := by
  refine Lexer.invariant_of_tokens
    (P := fun acc lx => Lexer.LaidOut text acc lx ∧ lx.Anchored text ∧ ∀ t ∈ acc, t.InText text)
    (Q := fun listing => (∀ t ∈ listing.items, t.isClosing = false ∨ listing.fault ≠ none →
      t.InText text) ∧ ∀ e, listing.fault = some e → e.PointsInto text) ?_ ?_ ?_
    ⟨Lexer.laidOut_ofText text, Lexer.anchored_ofText text, List.forall_mem_nil _⟩
  · intro acc lx ts next h hstep
    have hpoints := h.2.1.step h.1
    rw [hstep] at hpoints
    exact ⟨h.1.step hstep, hpoints.2, List.forall_mem_append.mpr ⟨h.2.2, hpoints.1⟩⟩
  · intro acc lx ts h hstep
    have hpoints := h.2.1.step h.1
    rw [hstep] at hpoints
    refine ⟨fun t ht hkind => ?_, by simp⟩
    exact (List.mem_append.mp ht).elim (h.2.2 t) fun ht => hpoints t ht (by simpa using hkind)
  · intro acc lx ts e h hstep
    have hpoints := h.2.1.step h.1
    rw [hstep] at hpoints
    refine ⟨fun t ht _ => ?_, fun e' he' => Option.some.inj he' ▸ hpoints.2⟩
    exact (List.mem_append.mp ht).elim (h.2.2 t) (hpoints.1 t)

end DialogScript
