import DialogScript.Proofs.Lexing.SideBySide

/-!
# Lexers in lockstep

Two lexers that stand side by side in two texts take the same steps (`Relayout.Beside.step`), if
indentation is read alike from both (`Relayout.Sound`). Their tokens are then the same but for
their places (`Relayout.Beside.tokens`).

Block strings hold text of their lines together with blanks at its start. They need either a
layout that changes no indentation (`Relayout.KeepsBlocks`) or a text that has no block strings
(`Lexer.BlockFree`).
-/

namespace DialogScript

open Text

namespace Relayout

variable {r : Relayout} {place : Cursor → Cursor → Prop} {lx mx : Lexer} {c d : Cursor}

/-! ### Lines -/

/-- The other layout keeps the order of indentations, and indentation is read alike. -/
structure Sound (r : Relayout) : Prop where
  nil : r.lines [] []
  canRead : ∀ {cs ds : List Char}, r.lines cs ds → (ds = [] ↔ cs = [])
  zero : r.width 0 = 0
  mono : StrictMono r.width
  indent : ∀ {c d : Cursor}, r.AtStart c d →
    (∃ e e' c' d', c.readIndent none = (.error e, c') ∧ d.readIndent none = (.error e', d')) ∨
      ∃ level c' d', c.readIndent none = (.ok level, c') ∧
        d.readIndent none = (.ok (r.width level), d') ∧ r.Within c' d'

/-- The other layout keeps the indentation of block strings and the number of their lines. -/
structure KeepsBlocks (r : Relayout) : Prop where
  width : ∀ n, r.width n = n
  indent : ∀ {c d : Cursor} (limit : Nat), r.AtStart c d →
    (∃ e e' c' d', c.readIndent (some limit) = (.error e, c') ∧
        d.readIndent (some limit) = (.error e', d')) ∨
      ∃ level c' d', c.readIndent (some limit) = (.ok level, c') ∧
        d.readIndent (some limit) = (.ok level, d') ∧ r.Within c' d' ∧
        d'.line - d.line = c'.line - c.line

/-- What a step does in the two texts. -/
inductive Steps (r : Relayout) : LexerStep → LexerStep → Prop
  | more {ts us : List Token} {next next' : Lexer} (htokens : SameLexemes ts us)
      (hnext : r.Beside next next') : Steps r (.more ts next) (.more us next')
  | done {ts us : List Token} (htokens : SameLexemes ts us) : Steps r (.done ts) (.done us)
  | fail {ts us : List Token} (htokens : SameLexemes ts us) (e e' : SyntaxError) :
      Steps r (.fail ts e) (.fail us e')

/-- Tokens and a result in the two texts: the same lexemes, and both results are there and related,
or neither is there. -/
inductive Parts {α : Type} (related : α → α → Prop) :
    List Token × Except SyntaxError α → List Token × Except SyntaxError α → Prop
  | ok {ts us : List Token} {a b : α} (htokens : SameLexemes ts us) (h : related a b) :
      Parts related (ts, .ok a) (us, .ok b)
  | error {ts us : List Token} (htokens : SameLexemes ts us) (e e' : SyntaxError) :
      Parts related (ts, .error e) (us, .error e')

/-- The line breaks before a line of a block string are as many in both texts. -/
theorem AtStart.blockIndentation (h : r.AtStart c d) (hblocks : r.KeepsBlocks) {s s' : BlockString}
    (hquotes : s'.quotes = s.quotes) (hbaseline : s'.baseline = s.baseline)
    (hpending : s'.pending.isSome = s.pending.isSome) :
    Parts (fun a b => b.1.quotes = a.1.quotes ∧ b.1.baseline = a.1.baseline ∧
        b.1.pending.isSome = a.1.pending.isSome ∧ r.Within a.2 b.2)
      (Lexer.blockIndentation s c) (Lexer.blockIndentation s' d) := by
  unfold Lexer.blockIndentation
  rw [hbaseline]
  rcases hblocks.indent s.baseline h with ⟨e, e', c', d', hread, hread'⟩ |
    ⟨level, c', d', hread, hread', hlast, hlines⟩
  · rw [hread, hread']
    exact .error (.refl _) _ _
  rw [hread, hread']
  dsimp only
  rw [hlines, hlast.canRead]
  generalize hbreaks : s.pending.toList ++ Lexer.lineStarts c.line (c'.line - c.line) = breaks
  generalize hbreaks' : s'.pending.toList ++ Lexer.lineStarts d.line (c'.line - c.line) = breaks'
  -- The breaks may stand on other lines, but there are as many of them.
  have hlength : breaks'.length = breaks.length := by
    rw [← hbreaks, ← hbreaks', List.length_append, List.length_append, Option.length_toList,
      Option.length_toList, hpending]
    simp [Lexer.lineStarts]
  have htokens : SameLexemes (breaks.dropLast.map (.atSpan .text "\n"))
      (breaks'.dropLast.map (.atSpan .text "\n")) :=
    .of_length (l := (.text, "\n")) (by simp [hlength]) (fun _ => rfl) (fun _ => rfl)
  split
  · exact .error htokens _ _
  · refine .ok htokens ⟨hquotes, rfl, ?_, hlast⟩
    rw [Bool.eq_iff_iff, List.getLast?_isSome, List.getLast?_isSome, ← List.length_pos_iff,
      ← List.length_pos_iff, hlength]

private theorem closeBlocks_map (hmono : StrictMono r.width) (level : Nat) (indents : List Nat) :
    Lexer.closeBlocks (r.width level) (indents.map r.width) =
      ((Lexer.closeBlocks level indents).1.map r.width,
        (Lexer.closeBlocks level indents).2.map r.width) := by
  have hwider : (fun x => decide (r.width level < x)) ∘ r.width = fun x => decide (level < x) := by
    funext x
    simp [hmono.lt_iff_lt]
  simp only [Lexer.closeBlocks, List.takeWhile_map, List.dropWhile_map, hwider]

/-- The indentation of a line opens and closes the same blocks in both texts. -/
theorem Alike.lineIndentation (h : r.Alike r.AtStart lx mx) (hr : r.Sound) :
    Parts (fun a b => a.modes = lx.modes ∧ r.Alike r.Within a b)
      lx.lineIndentation mx.lineIndentation := by
  unfold Lexer.lineIndentation
  rcases hr.indent h.cursor with ⟨e, e', c, d, hread, hread'⟩ |
    ⟨level, c, d, hread, hread', hlast⟩
  · rw [hread, hread']
    exact .error (.refl _) _ _
  rw [hread, hread']
  dsimp only
  rw [hlast.canRead]
  split
  · exact .ok (.refl _) ⟨rfl, h.moveTo hlast⟩
  rw [h.indentation hr.zero, h.indents, closeBlocks_map hr.mono]
  by_cases hwider : lx.indentation < level
  · rw [if_pos hwider, if_pos (hr.mono hwider)]
    exact .ok (sameLexemes_singleton rfl) ⟨rfl, hlast, h.modes, rfl, h.lineOpen⟩
  rw [if_neg hwider, if_neg (hr.mono.lt_iff_lt.not.mpr hwider)]
  generalize Lexer.closeBlocks level lx.indents = blocks
  obtain ⟨closed, left⟩ := blocks
  have htop : (left.map r.width).headD 0 = r.width (left.headD 0) := by
    cases left with
    | nil => exact hr.zero.symm
    | cons => rfl
  have htokens : SameLexemes
      (closed.map fun _ => Token.atSpan .dedent "" (Span.point c.line (level + 1)))
      ((closed.map r.width).map fun _ =>
        Token.atSpan .dedent "" (Span.point d.line (r.width level + 1))) :=
    .of_length (List.length_map _) (fun _ => rfl) (fun _ => rfl)
  dsimp only
  rw [htop]
  by_cases hopen : left.headD 0 = level
  · rw [if_pos hopen, if_pos (congrArg r.width hopen)]
    exact .ok htokens ⟨rfl, hlast, h.modes, rfl, h.lineOpen⟩
  · rw [if_neg hopen, if_neg fun heq => hopen (hr.mono.injective heq)]
    exact .error htokens _ _

/-! ### Steps -/

theorem Results.stepTo {result result' : Except SyntaxError (List Token × Lexer)}
    (h : r.Results result result') {before before' : List Token}
    (hbefore : SameLexemes before before') (hopen : mx.lineOpen = lx.lineOpen) :
    r.Steps (lx.stepTo before result) (mx.stepTo before' result') := by
  cases h with
  | error e e' => exact .fail hbefore e e'
  | ok htokens hnext =>
    have hall := hbefore.append htokens
    refine .more hall ?_
    rw [hopen, hall.lineOpenAfter]
    cases hnext with
    | start h hline hhole => exact .start ⟨h.cursor, h.modes, h.indents, rfl⟩ hline hhole
    | within h hcolumn => exact .within ⟨h.cursor, h.modes, h.indents, rfl⟩ hcolumn

theorem Alike.finish (h : r.Alike place lx mx) {before before' : List Token}
    (hbefore : SameLexemes before before') :
    r.Steps (lx.finish before) (mx.finish before') := by
  unfold Lexer.finish
  rw [h.lineOpen, h.indents]
  simp only [h.mode.eq_code_iff]
  split
  · refine .done (((hbefore.append ?_).append ?_).append (sameLexemes_singleton rfl))
    · split <;> rfl
    · exact .of_length (by simp) (fun _ => rfl) (fun _ => rfl)
  · exact .fail hbefore _ _

end Relayout

/-- A lexer reads no block string and will not open one. -/
structure Lexer.BlockFree (lx : Lexer) : Prop where
  modes : ∀ s, Mode.blockString s ∉ lx.modes
  rest : ¬['"', '"', '"'] <:+: lx.cursor.rest

namespace Lexer.BlockFree

variable {lx next : Lexer} {ts : List Token} {c d : Cursor}

/-- Three quotes in a row would be three quotes in the text. -/
theorem quoteRun_le (h : lx.BlockFree) (hreach : lx.cursor.Reaches c) :
    (quoteRun c).1.length ≤ 2 := by
  refine Nat.le_of_not_lt fun hlong => h.rest ?_
  have hall : (quoteRun c).1 = List.replicate (quoteRun c).1.length '"' := by
    refine List.eq_replicate_iff.mpr ⟨rfl, fun ch hch => ?_⟩
    simpa using List.all_eq_true.mp List.all_takeWhile _ hch
  have hthree : ['"', '"', '"'] <+: (quoteRun c).1 := by
    rw [hall]
    exact List.prefix_replicate_iff.mpr ⟨hlong, rfl⟩
  exact (hthree.trans (List.takeWhile_prefix _)).isInfix.trans hreach.rest_suffix.isInfix

private theorem of_reaches (h : lx.BlockFree) (hreach : lx.cursor.Reaches next.cursor)
    (hmodes : next.modes = lx.modes) : next.BlockFree where
  modes := hmodes ▸ h.modes
  rest := fun hpart => h.rest (hpart.trans hreach.rest_suffix.isInfix)

theorem code (h : lx.BlockFree) (hcode : lx.code = .ok (ts, next)) : next.BlockFree := by
  have hmove := code_cases hcode
  refine ⟨?_, fun hpart => h.rest (hpart.trans hmove.reaches.rest_suffix.isInfix)⟩
  cases hmove with
  | blank | lineEnd | token => exact h.modes
  | openLine => simpa [push, moveTo] using h.modes
  | openBlock _ _ _ _ hlong =>
    exact absurd hlong (Nat.not_lt.mpr (h.quoteRun_le (reaches_skipBlanks lx.cursor)))
  | closeHole => exact fun s hs => h.modes s (List.mem_of_mem_tail hs)

theorem lineString (h : lx.BlockFree) (hmode : lx.mode = .lineString)
    (hstring : lx.lineString = .ok (ts, next)) : next.BlockFree := by
  have hreach := (lineString_cases hmode hstring).reaches
  refine ⟨?_, fun hpart => h.rest (hpart.trans hreach.rest_suffix.isInfix)⟩
  unfold Lexer.lineString at hstring
  split at hstring
  · cases hstring
  split at hstring
  · obtain ⟨-, rfl⟩ := Prod.mk.inj (Except.ok.inj hstring)
    simpa [push, moveTo] using h.modes
  · obtain ⟨-, rfl⟩ := Prod.mk.inj (Except.ok.inj hstring)
    exact fun s hs => h.modes s (List.mem_of_mem_tail hs)
  · cases hstring

theorem lineOpen (h : lx.BlockFree) (isOpen : Bool) : ({ lx with lineOpen := isOpen }).BlockFree :=
  ⟨h.modes, h.rest⟩

theorem codeStep (h : lx.BlockFree) {before : List Token}
    (hstep : Lexer.codeStep lx before = .more ts next) : next.BlockFree := by
  unfold Lexer.codeStep at hstep
  split at hstep
  · obtain ⟨own, last, hcode, -, rfl⟩ := eq_of_stepTo hstep
    exact (h.code hcode).lineOpen _
  · unfold finish at hstep
    split at hstep <;> cases hstep

theorem lineIndentation (h : lx.BlockFree) {before : List Token}
    (hindent : lx.lineIndentation = (before, .ok next)) : next.BlockFree := by
  rcases lineIndentation_cases hindent with hmargin | ⟨_, _, hlevel, -, -, rfl⟩
  · refine h.of_reaches hmargin.reaches ?_
    cases hmargin <;> rfl
  · exact h.of_reaches (Cursor.readIndent_reaches hlevel) rfl

theorem step (h : lx.BlockFree) (hstep : lx.step = .more ts next) : next.BlockFree := by
  unfold Lexer.step at hstep
  split at hstep
  · rename_i hmode
    obtain ⟨own, last, hstring, -, rfl⟩ := eq_of_stepTo hstep
    exact (h.lineString hmode hstring).lineOpen _
  · rename_i s hmode
    refine absurd ?_ (h.modes s)
    rw [modes_eq_of_mode hmode (by simp)]
    exact List.mem_cons_self
  · exact h.codeStep hstep
  · split at hstep
    · split at hstep
      · rename_i start hindent
        exact (h.lineIndentation hindent).codeStep hstep
      · cases hstep
    · exact h.codeStep hstep

end Lexer.BlockFree

namespace Relayout

variable {r : Relayout} {lx mx : Lexer}

/-- A step in code, past the indentation. -/
theorem Alike.codeStep (h : r.Alike r.Within lx mx) (hr : r.Sound)
    (hblocks : r.KeepsBlocks ∨ lx.BlockFree) (hline : lx.mode ≠ .lineString)
    {before before' : List Token} (hbefore : SameLexemes before before') :
    r.Steps (lx.codeStep before) (mx.codeStep before') := by
  unfold Lexer.codeStep
  rw [h.cursor.canRead]
  split
  · rename_i hcan
    refine (h.code hr.nil hline hcan ?_).stepTo hbefore h.lineOpen
    intro hlong
    rcases hblocks with hblocks | hfree
    · rw [h.indentation hr.zero, hblocks.width]
    · exact absurd hlong (Nat.not_lt.mpr (hfree.quoteRun_le (Lexer.reaches_skipBlanks _)))
  · exact h.finish hbefore

theorem AtStart.canRead {c d : Cursor} (h : r.AtStart c d) (hr : r.Sound) :
    d.canRead = c.canRead := by
  have hiff := hr.canRead h.rest
  unfold Cursor.canRead
  cases hc : c.rest <;> cases hd : d.rest <;> simp_all

/-- At the end of both texts the cursors stand within the same, empty line. -/
theorem AtStart.within {c d : Cursor} (h : r.AtStart c d) (hr : r.Sound)
    (hcan : c.canRead = false) : r.Within c d where
  rest := by
    have hc : c.rest = [] := by simpa [Cursor.canRead] using hcan
    rw [hc, (hr.canRead h.rest).mpr hc]
    exact .nil
  columns := .inl ⟨h.left, h.right⟩
  styles := h.styles

theorem AtStart.atLineStart {c d : Cursor} (h : r.AtStart c d) :
    c.atLineStart = true ∧ d.atLineStart = true := by
  simp [Cursor.atLineStart, h.left, h.right]

theorem Within.atLineStart {c d : Cursor} (h : r.Within c d) (hcolumn : 1 < c.column) :
    c.atLineStart = false ∧ d.atLineStart = false := by
  have hcolumns := h.columns
  simp only [Cursor.atLineStart, beq_eq_false_iff_ne]
  omega

/-- A step in a block string. -/
theorem Beside.blockString (h : r.Beside lx mx) (hr : r.Sound) (hblocks : r.KeepsBlocks)
    {s s' : BlockString} (hquotes : s'.quotes = s.quotes) (hbaseline : s'.baseline = s.baseline)
    (hpending : s'.pending.isSome = s.pending.isSome) :
    r.Steps (lx.stepTo (lx.blockString s).1 (lx.blockString s).2)
      (mx.stepTo (mx.blockString s').1 (mx.blockString s').2) := by
  unfold Lexer.blockString
  cases h with
  | start h hline hhole =>
    obtain ⟨hstart, hstart'⟩ := h.cursor.atLineStart
    rw [h.cursor.canRead hr, hstart, hstart', Bool.true_and]
    split
    · have hindent := h.cursor.blockIndentation hblocks hquotes hbaseline hpending
      generalize Lexer.blockIndentation s lx.cursor = part,
        Lexer.blockIndentation s' mx.cursor = part' at hindent
      cases hindent with
      | error htokens e e' => exact .fail htokens e e'
      | ok htokens hlast =>
        obtain ⟨hquotes, hbaseline, hpending, hlast⟩ := hlast
        exact (h.blockContent hr.nil hlast hquotes hbaseline hpending).stepTo htokens h.lineOpen
    · rename_i hcan
      have hlast := h.cursor.within hr (by simpa using hcan)
      exact (h.blockContent hr.nil hlast hquotes hbaseline hpending).stepTo (.refl _) h.lineOpen
  | within h hcolumn =>
    obtain ⟨hstart, hstart'⟩ := h.cursor.atLineStart hcolumn
    rw [hstart, hstart']
    exact (h.blockContent hr.nil h.cursor hquotes hbaseline hpending).stepTo (.refl _) h.lineOpen

/-- Every step does the same in both texts and leaves the lexers side by side. -/
theorem Beside.step (h : r.Beside lx mx) (hr : r.Sound)
    (hblocks : r.KeepsBlocks ∨ lx.BlockFree) : r.Steps lx.step mx.step := by
  have hmode : lx.mode.Alike mx.mode := by
    cases h with
    | start h => exact h.mode
    | within h => exact h.mode
  unfold Lexer.step
  generalize hlx : lx.mode = m, hmx : mx.mode = m' at hmode
  cases hmode with
  | lineString =>
    cases h with
    | start _ hline => exact absurd hlx hline
    | within h => exact h.lineString.stepTo (.refl _) h.lineOpen
  | hole =>
    cases h with
    | start _ _ hhole => exact absurd hlx hhole
    | within h => exact h.codeStep hr hblocks (by simp [hlx]) (.refl _)
  | @blockString s s' hquotes hbaseline hpending =>
    rcases hblocks with hblocks | hfree
    · exact h.blockString hr hblocks hquotes hbaseline hpending
    · -- A text without three quotes in a row never comes to a block string.
      refine absurd ?_ (hfree.modes s)
      rw [Lexer.modes_eq_of_mode hlx (by simp)]
      exact List.mem_cons_self
  | code =>
    have hline : lx.mode ≠ .lineString := by simp [hlx]
    dsimp only
    cases h with
    | within h hcolumn =>
      obtain ⟨hstart, hstart'⟩ := h.cursor.atLineStart hcolumn
      rw [hstart, hstart']
      exact h.codeStep hr hblocks hline (.refl _)
    | start h =>
      obtain ⟨hstart, hstart'⟩ := h.cursor.atLineStart
      rw [h.cursor.canRead hr, hstart, hstart', Bool.true_and]
      split
      · -- What the indentation closes comes before the first token of the line.
        have hmargin := h.lineIndentation hr
        generalize hpart : lx.lineIndentation = part, mx.lineIndentation = part' at hmargin
        cases hmargin with
        | error htokens e e' => exact .fail htokens e e'
        | ok htokens hnext =>
          obtain ⟨hmodes, hnext⟩ := hnext
          refine hnext.codeStep hr (hblocks.imp_right fun hfree => ?_) ?_ htokens
          · exact hfree.lineIndentation hpart
          · rwa [Lexer.mode, hmodes]
      · rename_i hcan
        have hwithin := h.cursor.within hr (by simpa using hcan)
        exact (h.moveTo hwithin).codeStep hr hblocks hline (.refl _)

/-- The lexers give the same lexemes up to the end, and both come to an error or neither does. -/
theorem Beside.tokens (h : r.Beside lx mx) (hr : r.Sound)
    (hblocks : r.KeepsBlocks ∨ lx.BlockFree) :
    SameLexemes lx.tokens.items mx.tokens.items ∧
      mx.tokens.fault.isSome = lx.tokens.fault.isSome := by
  -- Every step of the first lexer is a step of the second one.
  fun_induction Lexer.tokens lx generalizing mx with
  | case1 lx ts hstep =>
    have hsteps := h.step hr hblocks
    rw [hstep] at hsteps
    rw [mx.tokens_eq]
    generalize mx.step = step' at hsteps
    cases hsteps with
    | done htokens => exact ⟨htokens, rfl⟩
  | case2 lx ts e hstep =>
    have hsteps := h.step hr hblocks
    rw [hstep] at hsteps
    rw [mx.tokens_eq]
    generalize mx.step = step' at hsteps
    cases hsteps with
    | fail htokens => exact ⟨htokens, rfl⟩
  | case3 lx ts next hstep _ ih =>
    have hsteps := h.step hr hblocks
    rw [hstep] at hsteps
    rw [mx.tokens_eq]
    generalize mx.step = step' at hsteps
    cases hsteps with
    | more htokens hnext =>
      obtain ⟨hitems, hfault⟩ := ih hnext (hblocks.imp_right fun hfree => hfree.step hstep)
      exact ⟨htokens.append hitems, hfault⟩

end Relayout

end DialogScript
