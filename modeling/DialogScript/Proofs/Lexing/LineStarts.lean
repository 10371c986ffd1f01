import DialogScript.Proofs.Lexing.Locations
import DialogScript.Proofs.Lexing.Lockstep

/-!
# Between two lines

The lines above a place matter for what follows only through the blocks that they leave open. A
text that ends in a line break and has tokens leaves the lexer between two lines
(`Lexer.LineStart`), and every longer text goes on from there (`exists_lineStart`). How many lines
are above makes no difference either: two lexers that differ in the numbers of their lines alone
give the same lexemes (`sound_movedDown`, `keepsBlocks_movedDown`).
-/

namespace DialogScript

namespace Text

/-- Lines are joined below other lines. -/
theorem intercalate_append_lines (above : List (List Char)) {below : List (List Char)}
    (hbelow : below ≠ []) : ['\n'].intercalate (above ++ below) =
      ['\n'].intercalate (above ++ [[]]) ++ ['\n'].intercalate below := by
  induction above with
  | nil => rfl
  | cons line above ih =>
    have hne : above ++ below ≠ [] := by simp [hbelow]
    have hne' : above ++ [[]] ≠ [] := by simp
    rw [List.cons_append, List.cons_append, List.intercalate_cons_of_ne_nil hne,
      List.intercalate_cons_of_ne_nil hne', ih, List.append_assoc, List.append_assoc,
      List.append_assoc]

/-- Lines of which the last one is empty end in a line break. -/
theorem getLast?_intercalate (above : List (List Char)) :
    ∀ x ∈ (['\n'].intercalate (above ++ [[]])).getLast?, x = '\n' := by
  induction above with
  | nil =>
    intro x hx
    cases hx
  | cons line above ih =>
    have hne : above ++ [[]] ≠ [] := by simp
    intro x hx
    rw [List.cons_append, List.intercalate_cons_of_ne_nil hne, List.append_assoc,
      List.getLast?_append, List.getLast?_append] at hx
    cases hlast : (['\n'].intercalate (above ++ [[]])).getLast? with
    | none => simpa [hlast, eq_comm] using hx
    | some y =>
      obtain rfl : y = x := by simpa [hlast] using hx
      exact ih y hlast

end Text

open Text

namespace Cursor

variable {c d : Cursor}

/-- In a longer text, indentation is read on from where it was read to. -/
theorem readIndent_before_last {limit : Option Nat} {r : Except SyntaxError Nat}
    (more : List Char) (hends : c.EndsLine) (h : c.readIndent limit = (r, d)) :
    (c.before more).readIndent limit = (d.before more).readIndent limit := by
  fun_induction readIndent limit c with
  | case1 | case2 | case4 | case7 | case8 =>
    obtain ⟨-, rfl⟩ := Prod.mk.inj h
    rfl
  | case3 c _ _ hread _ hlimit hend ih =>
    have hbreak := hends.break_mem_of_lt (remaining_lt_of_read? hread)
    rw [readIndent_of_read? (read?_before more hbreak hread), atLineEnd_before more hbreak,
      ← ih (hends.read? hend hread) h]
    exact (if_neg hlimit).trans (if_pos hend)
  | case5 c _ _ hread _ hlimit hend ch hpeek hblank hstyle ih =>
    have hbreak := hends.break_mem_of_lt (remaining_lt_of_read? hread)
    have hnext : (withStyle ch _).EndsLine :=
      hends.reaches ((Reaches.of_read? hread).trans (.styled (.refl _)))
    rw [readIndent_of_read? (read?_before more hbreak hread), atLineEnd_before more hbreak,
      peek_before more hbreak, ← ih hnext h]
    simp only [before, hlimit, hend, hpeek, hblank, hstyle]
    rfl
  | case6 c _ _ hread _ hlimit hend ch hstyle hpeek hblank ih =>
    have hbreak := hends.break_mem_of_lt (remaining_lt_of_read? hread)
    have hnext := hends.reaches (Reaches.of_read? hread)
    rw [readIndent_of_read? (read?_before more hbreak hread), atLineEnd_before more hbreak,
      peek_before more hbreak, ← ih hnext h]
    simp [before, hlimit, hend, hpeek, hblank, hstyle]

end Cursor

namespace Lexer

/-- The lexer stands between two lines, at the end of the text so far. -/
structure LineStart (lx : Lexer) : Prop where
  modes : lx.modes = [.code]
  lineClosed : lx.lineOpen = false
  column : lx.cursor.column = 1
  rest : lx.cursor.rest = []

/-- The first step of a line depends on the text above only through the indentation. -/
theorem step_of_readIndent {lx mx : Lexer} {c : Cursor} (hmx : mx = lx.moveTo c)
    (hmode : lx.mode = .code) (hcan : lx.cursor.canRead = true) (hcan' : c.canRead = true)
    (hcolumn : lx.cursor.column = 1) (hcolumn' : c.column = 1)
    (hread : lx.cursor.readIndent none = c.readIndent none) : lx.step = mx.step := by
  subst hmx
  have hindent : (lx.moveTo c).lineIndentation = lx.lineIndentation := by
    unfold lineIndentation
    rw [hread]
    rfl
  have hstart : lx.cursor.atLineStart = true := by simp [Cursor.atLineStart, hcolumn]
  have hstart' : (lx.moveTo c).cursor.atLineStart = true := by
    simp [Cursor.atLineStart, moveTo, hcolumn']
  have hmode' : (lx.moveTo c).mode = .code := hmode
  have hcan' : (lx.moveTo c).cursor.canRead = true := hcan'
  simp [step, hmode, hmode', hstart, hstart', hcan, hcan', hindent]

end Lexer

/-- Below lines that have tokens of their own, the lexer goes on from the start of a line. -/
theorem exists_lineStart {text : String} {above : List (List Char)}
    (hlines : lines text.toList = above ++ [[]]) (hfault : (tokensOf text).fault = none) :
    ∃ acc base, Lexer.LineStart base ∧ base.cursor.line = above.length + 1 ∧
      ∀ more ≠ [], ((Lexer.ofText text).before more).tokens =
        (base.before more).tokens.prepend acc := by
  have hends : (Cursor.ofText text).EndsLine := by
    refine ⟨?_, fun _ => rfl⟩
    rw [Cursor.ofText, ← intercalate_splitBreaks (normalizeBreaks text.toList), ← lines, hlines]
    exact getLast?_intercalate above
  obtain ⟨acc, lx, ts, hlaid, hends, hreach, hstep, -, htokens⟩ := Lexer.exists_done hends hfault
  obtain ⟨hopen, -⟩ := hlaid.lines_of_done hends hstep
  obtain ⟨hmode, c, hending, -⟩ := Lexer.step_done hstep
  have hmodes : lx.modes = [.code] := by
    obtain ⟨_, _, _, bs, -, hline⟩ := hlaid
    have hnested := hline.nested
    rw [hline.nested.of_code hmode] at hnested
    generalize lx.modes = ms at hnested
    cases hnested
    rfl
  have hc : c.rest = [] := by
    cases hending with
    | here hend => simpa [Cursor.canRead] using hend
    | blankLines _ _ hend => simpa [Cursor.canRead] using hend
  have hcends := hends.reaches hending.reaches
  refine ⟨acc, lx.moveTo c, ⟨hmodes, hopen, hcends.column hc, hc⟩, ?_, ?_⟩
  · -- The last line is empty, so no comment ends the source.
    have hsplit : splitBreaks (normalizeBreaks text.toList) = above ++ [[]] := hlines
    rcases (Cursor.located_ofText text).reaches (hreach.trans hending.reaches) with
      hpast | ⟨part, hstands⟩
    · obtain ⟨last, hlast, hcomment⟩ := hpast.comment
      rw [hsplit, List.getLast?_concat] at hlast
      obtain rfl := Option.some.inj hlast
      cases hcomment
    · have hrest : splitBreaks c.rest = [[]] := by
        rw [hc]
        rfl
      have hcount := (hstands.getLast?_lines hrest).1
      rw [hsplit, List.length_append] at hcount
      exact hcount
  · intro more hmore
    rw [htokens more]
    cases hending with
    | here => rfl
    | @blankLines level _ hcolumn hread =>
      -- In the longer text the same step goes on from the blank lines to the next line.
      have hstep' : (lx.before more).step = ((lx.moveTo c).before more).step := by
        refine Lexer.step_of_readIndent (c := c.before more) rfl hmode ?_ ?_ hcolumn
          (hcends.column hc) (Cursor.readIndent_before_last more hends hread)
        · simp [Lexer.before, Cursor.before, Cursor.canRead, hmore]
        · simp [Cursor.before, Cursor.canRead, hmore]
      rw [Lexer.tokens_eq, hstep', ← Lexer.tokens_eq]

/-! ### The same text on other lines -/

/-- The same text, on other lines. -/
def movedDown : Relayout where
  lines := Eq
  styles := Eq
  width := id

namespace Text.AgreeOnLine

theorem refl {below : List Char → List Char → Prop} (hbelow : ∀ cs, below cs cs)
    (cs : List Char) : AgreeOnLine below cs cs := by
  induction cs with
  | nil => exact .nil
  | cons ch cs ih =>
    by_cases hch : ch = '\n'
    · subst hch
      exact .lineEnd (hbelow cs)
    · exact .cons hch ih

end Text.AgreeOnLine

namespace Cursor

/-- The same place on another line. -/
def onLine (line : Nat) (c : Cursor) : Cursor := { c with line := line }

private theorem read?_onLine {c d : Cursor} {x : Char} (line : Nat) (h : c.read? = some (x, d)) :
    (c.onLine line).read? = some (x, d.onLine (line + (d.line - c.line))) := by
  unfold read? at h ⊢
  split at h
  · cases h
  rename_i y rest hrest
  have hrest' : (c.onLine line).rest = y :: rest := hrest
  rw [hrest']
  dsimp only
  split at h
  · rename_i hy
    obtain ⟨rfl, rfl⟩ := Prod.mk.inj (Option.some.inj h)
    rw [if_pos hy]
    simp [onLine, nextLine]
  rename_i hy
  rw [if_neg hy]
  split at h
  · rename_i hcomment
    obtain ⟨rfl, rfl⟩ := Prod.mk.inj (Option.some.inj h)
    rw [if_pos hcomment]
    simp [onLine, nextLine]
  · rename_i hcomment
    obtain ⟨rfl, rfl⟩ := Prod.mk.inj (Option.some.inj h)
    rw [if_neg hcomment]
    simp [onLine, forward]

/-- Indentation is read alike on another line. -/
theorem readIndent_onLine {limit : Option Nat} {c d : Cursor} {r : Except SyntaxError Nat}
    (line : Nat) (h : c.readIndent limit = (r, d)) :
    ∃ r', (c.onLine line).readIndent limit = (r', d.onLine (line + (d.line - c.line))) ∧
      r'.toOption = r.toOption := by
  -- Both cursors go down by as many lines.
  have hlines (line : Nat) {c next : Cursor} {x : Char} (hread : c.read? = some (x, next))
      (hreach : next.Reaches d) :
      line + (next.line - c.line) + (d.line - next.line) = line + (d.line - c.line) := by
    have hfirst := (Reaches.of_read? hread).line_le
    have hrest := hreach.line_le
    omega
  fun_induction readIndent limit c generalizing line with
  | case1 c hnone =>
    obtain ⟨rfl, rfl⟩ := Prod.mk.inj h
    refine ⟨.ok 0, ?_, rfl⟩
    rw [Nat.sub_self]
    exact readIndent_of_nil (show c.rest = [] from rest_eq_nil_of_read? hnone)
  | case2 c _ _ hread _ hlimit =>
    obtain ⟨rfl, rfl⟩ := Prod.mk.inj h
    refine ⟨.ok c.level, ?_, rfl⟩
    rw [readIndent_of_read? (read?_onLine line hread), Nat.sub_self]
    exact if_pos hlimit
  | case3 c _ next hread _ hlimit hend ih =>
    obtain ⟨r', hread', hr'⟩ := ih (line + (next.line - c.line)) h
    refine ⟨r', ?_, hr'⟩
    rw [readIndent_of_read? (read?_onLine line hread), ← hlines line hread (readIndent_reaches h),
      ← hread']
    exact (if_neg hlimit).trans (if_pos hend)
  | case4 c _ _ hread _ _ hend hpeek =>
    have hnil : c.rest = [] := by simpa [peek] using hpeek
    simp [Cursor.read?, hnil] at hread
  | case5 c _ next hread _ hlimit hend ch hpeek hblank hstyle ih =>
    obtain ⟨r', hread', hr'⟩ := ih (line + (next.line - c.line)) h
    refine ⟨r', ?_, hr'⟩
    rw [readIndent_of_read? (read?_onLine line hread),
      ← hlines line hread (.styled (readIndent_reaches h))]
    refine Eq.trans ?_ hread'
    refine (if_neg hlimit).trans ((if_neg hend).trans ?_)
    rw [show (c.onLine line).peek = some ch from hpeek]
    simp [onLine, hblank, hstyle, withStyle]
  | case6 c _ next hread _ hlimit hend ch hstyle hpeek hblank ih =>
    obtain ⟨r', hread', hr'⟩ := ih (line + (next.line - c.line)) h
    refine ⟨r', ?_, hr'⟩
    rw [readIndent_of_read? (read?_onLine line hread), ← hlines line hread (readIndent_reaches h),
      ← hread']
    refine (if_neg hlimit).trans ((if_neg hend).trans ?_)
    rw [show (c.onLine line).peek = some ch from hpeek]
    simp [onLine, hblank, hstyle]
  | case7 c _ _ hread _ hlimit hend ch hpeek hblank style hstyle hne =>
    obtain ⟨rfl, rfl⟩ := Prod.mk.inj h
    refine ⟨.error ⟨.mixedIndentation style ch, (c.onLine line).point⟩, ?_, rfl⟩
    rw [readIndent_of_read? (read?_onLine line hread), Nat.sub_self]
    refine (if_neg hlimit).trans ((if_neg hend).trans ?_)
    rw [show (c.onLine line).peek = some ch from hpeek]
    simp [onLine, hblank, hstyle, hne]
  | case8 c _ _ hread _ hlimit hend ch hpeek hblank =>
    obtain ⟨rfl, rfl⟩ := Prod.mk.inj h
    refine ⟨.ok c.level, ?_, rfl⟩
    rw [readIndent_of_read? (read?_onLine line hread), Nat.sub_self]
    refine (if_neg hlimit).trans ((if_neg hend).trans ?_)
    rw [show (c.onLine line).peek = some ch from hpeek]
    simp [hblank, level, onLine, canRead]

end Cursor

namespace Relayout

variable {c d : Cursor}

/-- At the start of a line the cursors differ in their lines alone. -/
theorem AtStart.eq_onLine (h : movedDown.AtStart c d) : d = c.onLine d.line := by
  obtain ⟨rest, line, column, style⟩ := c
  obtain ⟨rest', line', column', style'⟩ := d
  obtain rfl : rest = rest' := h.rest
  obtain rfl : column = 1 := h.left
  obtain rfl : column' = 1 := h.right
  obtain rfl : style = style' := h.styles
  rfl

theorem AtStart.readIndent (h : movedDown.AtStart c d) (limit : Option Nat) :
    (∃ e e' c' d', c.readIndent limit = (.error e, c') ∧ d.readIndent limit = (.error e', d')) ∨
      ∃ level c' d', c.readIndent limit = (.ok level, c') ∧ d.readIndent limit = (.ok level, d') ∧
        movedDown.Within c' d' ∧ d'.line - d.line = c'.line - c.line := by
  rcases hread : c.readIndent limit with ⟨r, c'⟩
  obtain ⟨r', hread', hr'⟩ := Cursor.readIndent_onLine d.line hread
  rw [← h.eq_onLine] at hread'
  cases r with
  | error e =>
    cases r' with
    | error e' => exact .inl ⟨e, e', _, _, rfl, hread'⟩
    | ok level => cases hr'
  | ok level =>
    cases r' with
    | error e' => cases hr'
    | ok level' =>
      obtain rfl : level' = level := Option.some.inj hr'
      refine .inr ⟨level', c', _, rfl, hread', ⟨.refl (fun _ => rfl) _, ?_, rfl⟩, ?_⟩
      · have hpos := (Cursor.readIndent_reaches hread).one_le_column (Nat.le_of_eq h.left.symm)
        change c'.column = 1 ∧ c'.column = 1 ∨ 1 < c'.column ∧ 1 < c'.column
        omega
      · simp [Cursor.onLine]

end Relayout

theorem sound_movedDown : movedDown.Sound where
  nil := rfl
  canRead := fun h => by rw [show _ = _ from h]
  zero := rfl
  mono := strictMono_id
  indent := fun h => (h.readIndent none).imp_right fun ⟨level, c', d', hread, hread', hlast, _⟩ =>
    ⟨level, c', d', hread, hread', hlast⟩

theorem keepsBlocks_movedDown : movedDown.KeepsBlocks where
  width := fun _ => rfl
  indent := fun limit h => h.readIndent (some limit)

end DialogScript
