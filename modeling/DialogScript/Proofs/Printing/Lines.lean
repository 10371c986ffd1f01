import DialogScript.Proofs.Printing.Terms

/-!
# Reading written lines

How the lexer reads the lines of a written program. At the start of a line the state of the lexer
is known from the number of open blocks (`AtLine`), since every block is indented by the same
step. The margin of the line says how many blocks are open from there on, and its tokens open one
block or close some (`Shift`). They are given together with the first token of the line, so the
lemmas about lines start with the first lexeme (`AtLine.first`).
-/

namespace DialogScript

open Text Lexer Grammar

/-! ### Margins -/

/-- The widths of a number of open blocks, the innermost first. -/
def IndentStyle.widths (style : IndentStyle) : Nat → List Nat
  | 0 => [0]
  | depth + 1 => (depth + 1) * style.step :: style.widths depth

variable {digits : DigitLimit} {style : IndentStyle} {depth k : Nat} {lx : Lexer}
  {cs rest : List Char}

private theorem IndentStyle.headD_widths (style : IndentStyle) (depth : Nat) :
    (style.widths depth).headD 0 = depth * style.step := by
  cases depth with
  | zero => simp [widths]
  | succ depth => rfl

theorem IndentStyle.length_dropLast_widths (style : IndentStyle) (depth : Nat) :
    (style.widths depth).dropLast.length = depth := by
  have hlength : (style.widths depth).length = depth + 1 := by
    induction depth with
    | zero => rfl
    | succ depth ih => rw [widths, List.length_cons, ih]
  simp [hlength]

/-- The line of a block closes the blocks inside it. -/
theorem IndentStyle.closeBlocks_widths (style : IndentStyle) (hk : k ≤ depth) :
    ∃ closed, closeBlocks (k * style.step) (style.widths depth) = (closed, style.widths k) ∧
      closed.length = depth - k := by
  induction depth with
  | zero =>
    obtain rfl : k = 0 := by omega
    exact ⟨[], by simp [closeBlocks, widths], rfl⟩
  | succ depth ih =>
    by_cases heq : k = depth + 1
    · subst heq
      exact ⟨[], by simp [closeBlocks, widths], by simp⟩
    · obtain ⟨closed, hclose, hlength⟩ := ih (by omega)
      rw [closeBlocks, Prod.mk.injEq] at hclose
      have hwide : k * style.step < (depth + 1) * style.step :=
        Nat.mul_lt_mul_of_pos_right (by omega) style.step_pos
      refine ⟨(depth + 1) * style.step :: closed, ?_, by simp [hlength]; omega⟩
      simp [closeBlocks, widths, hwide, hclose]

private theorem readIndent_of_startsInk {c : Cursor} (hink : StartsInk c.rest) :
    c.readIndent none = (.ok (c.column - 1), c) := by
  have hend := atLineEnd_of_startsInk hink
  obtain ⟨x, more, hrest, hblank, -⟩ := hink
  exact Cursor.readIndent_of_ink hrest hend hblank

/-- The margin of a line is read up to the first character that is no blank. -/
theorem readIndent_margin {c : Cursor} {ch : Char} (hch : Cursor.isIndentChar ch = true)
    {width : Nat} (hrest : c.rest = List.replicate width ch ++ cs) (hink : StartsInk cs)
    (hstyle : 0 < width → c.style = none ∨ c.style = some ch) (hcolumn : 1 ≤ c.column) :
    c.readIndent none = (.ok (c.column - 1 + width), c.pastBlanks ch width cs) := by
  rw [Cursor.readIndent_blanks hch hrest hstyle (by simp), readIndent_of_startsInk hink]
  simp only [Cursor.pastBlanks, Cursor.forward, Nat.sub_add_comm hcolumn]

/-! ### States -/

/-- The lexer reads code with a number of open blocks, each indented by one step more. -/
structure InBlock (style : IndentStyle) (depth : Nat) (lx : Lexer) : Prop where
  modes : lx.modes = [.code]
  indents : lx.indents = style.widths depth
  indentChar : lx.cursor.style = none ∨ lx.cursor.style = some style.char

theorem InBlock.after (h : InBlock style depth lx) (cs rest : List Char) :
    InBlock style depth (lx.after cs rest) :=
  ⟨h.modes, h.indents, h.indentChar⟩

theorem InBlock.mode (h : InBlock style depth lx) : lx.mode = .code := by
  rw [Lexer.mode, h.modes]
  rfl

/-- The lexer stands at the start of a line with a number of blocks open before it. -/
structure AtLine (style : IndentStyle) (depth : Nat) (lx : Lexer) : Prop
    extends InBlock style depth lx where
  column : lx.cursor.column = 1
  lineClosed : lx.lineOpen = false

/-- The ends of a number of blocks. -/
structure AreDedents (n : Nat) (ts : List Token) : Prop where
  length : ts.length = n
  kinds : ∀ t ∈ ts, t.kind = .dedent

/-- The tokens of the margin of a line in `k` blocks after a line in `depth` blocks. -/
inductive Shift (depth : Nat) : Nat → List Token → Prop
  | opens {o : Token} (ho : o.kind = .indent) : Shift depth (depth + 1) [o]
  | closes {k : Nat} {ts : List Token} (hk : k ≤ depth) (hts : AreDedents (depth - k) ts) :
      Shift depth k ts

theorem Shift.areDedents {ts : List Token} (h : Shift depth k ts) (hk : k ≤ depth) :
    AreDedents (depth - k) ts := by
  cases h with
  | opens ho => omega
  | closes hk hts => exact hts

theorem Shift.kinds {ts : List Token} (h : Shift depth k ts) :
    ∀ t ∈ ts, t.kind = .indent ∨ t.kind = .dedent := by
  intro t ht
  cases h with
  | opens ho => exact Or.inl (List.mem_singleton.mp ht ▸ ho)
  | closes _ hts => exact Or.inr (hts.kinds t ht)

/-- The line is open after the first token of its text. -/
theorem lineOpenAfter_first {before : List Token} {t : Token}
    (hbefore : ∀ u ∈ before, u.kind = .indent ∨ u.kind = .dedent) (ht : isSimple t.kind = true)
    (isOpen : Bool) : lineOpenAfter isOpen (before ++ [t]) = true := by
  induction before with
  | nil =>
    rw [List.nil_append, lineOpenAfter, List.foldl_cons]
    split <;> simp_all [isSimple]
  | cons u before ih =>
    have hrest := ih fun v hv => hbefore v (List.mem_cons_of_mem u hv)
    rw [lineOpenAfter, List.cons_append, List.foldl_cons]
    rcases hbefore u (by simp) with hu | hu <;>
      · simp only [hu]
        exact hrest

/-! ### Lines -/

/-- The margin of a line opens one block or closes some. -/
theorem AtLine.lineIndentation (h : AtLine style depth lx) (hk : k ≤ depth + 1)
    (hrest : lx.cursor.rest = style.margin k ++ cs) (hink : StartsInk cs) :
    ∃ before next, lx.lineIndentation = (before, .ok next) ∧ Shift depth k before ∧
      InBlock style k next ∧ next.cursor.rest = cs ∧ 1 ≤ next.cursor.column ∧
      next.lineOpen = false := by
  have hread := readIndent_margin style.isIndentChar hrest hink (fun _ => h.indentChar)
    (Nat.le_of_eq h.column.symm)
  have hs := Cursor.style_pastBlanks h.indentChar (k * style.step) cs
  rw [h.column, Nat.sub_self, Nat.zero_add] at hread
  have hread' : (lx.cursor.pastBlanks style.char (k * style.step) cs).canRead = true := by
    simp [Cursor.canRead, Cursor.pastBlanks, Cursor.forward, hink.ne_nil]
  have hindentation : lx.indentation = depth * style.step := by
    rw [indentation, h.indents, style.headD_widths]
  simp only [Lexer.lineIndentation, hread, hindentation]
  by_cases hopen : k = depth + 1
  · -- The margin is one step wider than the last one.
    subst hopen
    have hwide : depth * style.step < (depth + 1) * style.step :=
      Nat.mul_lt_mul_of_pos_right (by omega) style.step_pos
    rw [if_neg (by simp [hread']), if_pos hwide]
    refine ⟨_, _, rfl, .opens rfl, ⟨h.modes, ?_, hs⟩, rfl, ?_, h.lineClosed⟩
    · rw [moveTo, h.indents]
      rfl
    · simp [moveTo, Cursor.pastBlanks, Cursor.forward, h.column]
  · -- The margin is one of the widths on the stack, so closing blocks stops exactly at it.
    have hwide : k * style.step ≤ depth * style.step := Nat.mul_le_mul_right _ (by omega)
    obtain ⟨closed, hclose, hlength⟩ :=
      style.closeBlocks_widths (show k ≤ depth by omega)
    rw [if_neg (by simp [hread']), if_neg (by omega)]
    rw [h.indents, hclose]
    simp only [style.headD_widths, if_true]
    refine ⟨_, _, rfl, .closes (by omega) ⟨by simp [hlength], ?_⟩, ⟨h.modes, rfl, hs⟩, rfl, ?_,
      h.lineClosed⟩
    · intro t ht
      obtain ⟨_, -, rfl⟩ := List.mem_map.mp ht
      rfl
    · simp [moveTo, Cursor.pastBlanks, Cursor.forward, h.column]

/-- The first lexeme of a line is given after the tokens of its margin. -/
theorem yields_of_lineIndentation (hmode : lx.mode = .code) (hcolumn : lx.cursor.column = 1)
    (hread : lx.cursor.canRead = true) {before : List Token} {mid : Lexer}
    (hmargin : lx.lineIndentation = (before, .ok mid))
    (hkinds : ∀ t ∈ before, t.kind = .indent ∨ t.kind = .dedent) {kind : TokenKind}
    (hlexeme : IsLexeme cs rest kind) (hmid : mid.cursor.rest = cs ++ rest) :
    lx.Yields (before ++ [tokenBetween kind cs mid.cursor (mid.after cs rest).cursor])
      { mid.after cs rest with lineOpen := true } := by
  have hstart : (lx.cursor.atLineStart && lx.cursor.canRead) = true := by
    simp [Cursor.atLineStart, hcolumn, hread]
  have hread' : mid.cursor.canRead = true := by
    simp [Cursor.canRead, hmid, hlexeme.startsInk.ne_nil]
  have hopen : lineOpenAfter mid.lineOpen
      (before ++ [tokenBetween kind cs mid.cursor (mid.after cs rest).cursor]) = true :=
    lineOpenAfter_first hkinds hlexeme.isSimple mid.lineOpen
  refine yields_of_step ?_
  simp only [step, hmode, hstart, if_true, hmargin, codeStep, hread', hlexeme.code mid hmid,
    stepTo, hopen]

theorem AtLine.first (h : AtLine style depth lx) (hk : k ≤ depth + 1) {kind : TokenKind}
    (hlexeme : IsLexeme cs rest kind) (hrest : lx.cursor.rest = style.margin k ++ (cs ++ rest)) :
    ∃ before t next, Shift depth k before ∧ t.kind = kind ∧ t.text = String.ofList cs ∧
      lx.Yields (before ++ [t]) next ∧ next.InCode ∧ InBlock style k next ∧
      next.cursor.rest = rest := by
  obtain ⟨before, mid, hmargin, hshift, hblock, hmid, hcolumn, hclosed⟩ :=
    h.lineIndentation hk hrest (hlexeme.startsInk.append rest)
  have hread : lx.cursor.canRead = true := by
    simp [Cursor.canRead, hrest, hlexeme.startsInk.ne_nil]
  have hyields := yields_of_lineIndentation h.mode h.column hread hmargin hshift.kinds hlexeme hmid
  obtain ⟨c, more, rfl, -⟩ := hlexeme.startsInk
  have hnext : InBlock style k { mid.after (c :: more) rest with lineOpen := true } :=
    ⟨hblock.modes, hblock.indents, hblock.indentChar⟩
  refine ⟨before, _, _, hshift, rfl, rfl, hyields, ⟨⟨rfl, ?_⟩, ?_⟩, hnext, rfl⟩
  · simp [after, moveTo, Cursor.forward]
    omega
  · rw [hnext.mode]
    rfl

/-- The end of a line closes it. -/
theorem InBlock.lineEnd (h : InBlock style k lx) (hlx : lx.InCode)
    (hrest : lx.cursor.rest = '\n' :: rest) :
    ∃ t next, t.kind = .lineEnd ∧ lx.Yields [t] next ∧ AtLine style k next ∧
      next.cursor.rest = rest :=
  ⟨_, _, rfl, yields_lineEnd hlx h.mode hrest, ⟨⟨h.modes, h.indents, h.indentChar⟩, rfl, rfl⟩, rfl⟩

/-- The rest of a line that is a blank and an expression. -/
theorem InBlock.expression (h : InBlock style k lx) (hlx : lx.InCode) {own : Level} {tree : Expr}
    (hcs : Spells digits cs own tree) (hrest : lx.cursor.rest = ' ' :: (cs ++ '\n' :: rest)) :
    ∃ ts e t next, lx.Yields (ts ++ [t]) next ∧ Expression digits .disjunction ts e ∧
      e.bare = tree ∧ t.kind = .lineEnd ∧ AtLine style k next ∧ next.cursor.rest = rest := by
  have hlx₁ := hlx.after [' '] (cs ++ '\n' :: rest)
  have hlx₂ := hlx₁.after cs ('\n' :: rest)
  obtain ⟨ts, e, hts, he, hbare⟩ :=
    hcs.lift own.height_le_disjunction _ ('\n' :: rest) hlx₁ rfl (closes_cons (by decide) rest)
  obtain ⟨t, next, ht, hyt, hnext, hleft⟩ := ((h.after _ _).after _ _).lineEnd hlx₂ rfl
  refine ⟨ts, e, t, next, ?_, he, hbare, ht, hnext, hleft⟩
  exact (yields_blank hlx hrest (by simp)).trans (hts.trans hyt)

/-- A blank and a lexeme further in a line. -/
theorem InBlock.lexeme (h : InBlock style k lx) (hlx : lx.InCode) {kind : TokenKind}
    (hlexeme : IsLexeme cs rest kind) (hrest : lx.cursor.rest = ' ' :: (cs ++ rest)) :
    ∃ t next, t.kind = kind ∧ t.text = String.ofList cs ∧ lx.Yields [t] next ∧ next.InCode ∧
      InBlock style k next ∧ next.cursor.rest = rest := by
  have hne := (hlexeme.startsInk.append rest).ne_nil
  have hlx₁ := hlx.after [' '] (cs ++ rest)
  obtain ⟨t, ht, htext, hyields⟩ := hlexeme.yields hlx₁ rfl
  exact ⟨t, _, ht, htext, (yields_blank hlx hrest hne).trans hyields, hlx₁.after _ _,
    (h.after _ _).after _ _, rfl⟩

/-- A line that is a word and an expression. -/
theorem AtLine.header (h : AtLine style depth lx) (hk : k ≤ depth + 1) {word : List Char}
    {kind : TokenKind} (hword : ∀ more, IsLexeme word (' ' :: more) kind) {own : Level}
    {tree : Expr} (hcs : Spells digits cs own tree)
    (hrest : lx.cursor.rest = style.line k (word ++ ' ' :: cs) ++ rest) :
    ∃ before t ts e last next, Shift depth k before ∧
      lx.Yields (before ++ (t :: ts ++ [last])) next ∧ t.kind = kind ∧
      Expression digits .disjunction ts e ∧ e.bare = tree ∧ last.kind = .lineEnd ∧
      AtLine style k next ∧ next.cursor.rest = rest := by
  have hline : lx.cursor.rest = style.margin k ++ (word ++ ' ' :: (cs ++ '\n' :: rest)) := by
    simp [hrest, IndentStyle.line]
  obtain ⟨before, t, mid, hshift, ht, -, hyt, hmid, hblock, hleft⟩ :=
    h.first hk (hword _) hline
  obtain ⟨ts, e, last, next, hts, he, hbare, hlast, hnext, hrest'⟩ :=
    hblock.expression hmid hcs hleft
  refine ⟨before, t, ts, e, last, next, hshift, ?_, ht, he, hbare, hlast, hnext, hrest'⟩
  simpa using hyt.trans hts

end DialogScript
