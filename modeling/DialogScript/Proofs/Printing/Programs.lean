import DialogScript.Proofs.Parsing.Statements
import DialogScript.Proofs.Printing.Lines

/-!
# Reading written programs

A program that was written is read back as the program it was written from, up to spans
(`parseProgram_renderProgram`).

The end of a block is noticed only at the next line, where the lexer gives the ends of all blocks
that the line is not in. The tokens of a statement are therefore known only up to the ends of the
blocks that are still open after its lines: `SpellsLines` says what they make up together with any
tokens that close those blocks.
-/

namespace DialogScript

open Text Lexer Grammar

variable {digits : DigitLimit} {style : IndentStyle} {depth k : Nat} {cs ds rest : List Char}

/-! ### Lines that spell a statement -/

/-- In `k` blocks, the lines `cs` are read as tokens that have a property together with any tokens
that close the blocks which are still open after the lines. -/
def SpellsLines (style : IndentStyle) (k : Nat) (cs : List Char) (P : List Token → Prop) : Prop :=
  ∀ (lx : Lexer) (depth : Nat) (rest : List Char), AtLine style depth lx → k ≤ depth + 1 →
    lx.cursor.rest = cs ++ rest →
    ∃ before ts next last, Shift depth k before ∧ lx.Yields (before ++ ts) next ∧
      AtLine style last next ∧ next.cursor.rest = rest ∧ k ≤ last ∧
      ∀ closing, AreDedents (last - k) closing → P (ts ++ closing)

/-- In `k` blocks, the lines `cs` are read as a statement with a given tree. -/
def SpellsStatement (digits : DigitLimit) (style : IndentStyle) (k : Nat) (cs : List Char)
    (tree : Stmt) : Prop :=
  SpellsLines style k cs fun ts => ∃ s, Statement digits ts s ∧ s.bare = tree

/-- In `k` blocks, the lines `cs` are read as statements with given trees, at least one. -/
def SpellsBody (digits : DigitLimit) (style : IndentStyle) (k : Nat) (cs : List Char)
    (trees : List Stmt) : Prop :=
  SpellsLines style k cs fun ts => ∃ ss, Statements digits ts ss ∧ Stmt.bareAll ss = trees

/-- In `k` blocks and after a block in them, the lines `cs` are read as the rest of a choice with
given trees. The tokens that close the block come first. -/
def SpellsElse (digits : DigitLimit) (style : IndentStyle) (k : Nat) (cs : List Char)
    (others : List Stmt) (otherwise : Stmt) : Prop :=
  ∀ (lx : Lexer) (depth : Nat) (rest : List Char), AtLine style depth lx → k + 1 ≤ depth →
    lx.cursor.rest = cs ++ rest →
    ∃ ts next last, lx.Yields ts next ∧ AtLine style last next ∧ next.cursor.rest = rest ∧
      k + 1 ≤ last ∧
      ∀ closing, AreDedents (last - k) closing →
        ∃ before us os o, ts ++ closing = before ++ us ∧ AreDedents (depth - k) before ∧
          ElseParts digits us os o ∧ Stmt.bareAll os = others ∧ o.bare = otherwise

private theorem AreDedents.nil_of_self {n : Nat} {ts : List Token} (h : AreDedents (n - n) ts) :
    ts = [] := by
  have := h.length
  rw [Nat.sub_self] at this
  exact List.eq_nil_of_length_eq_zero this

/-- The outermost of some blocks is closed last. -/
theorem AreDedents.split {n : Nat} {ts : List Token} (h : AreDedents n ts) (hn : 0 < n) :
    ∃ inner c, ts = inner ++ [c] ∧ AreDedents (n - 1) inner ∧ c.kind = .dedent := by
  have hne : ts ≠ [] := by
    rintro rfl
    have := h.length
    simp at this
    omega
  refine ⟨ts.dropLast, ts.getLast hne, (List.dropLast_concat_getLast hne).symm, ⟨?_, ?_⟩, ?_⟩
  · rw [List.length_dropLast, h.length]
  · exact fun t ht => h.kinds t (List.dropLast_subset ts ht)
  · exact h.kinds _ (List.getLast_mem hne)

/-- A statement of one line is complete with its line. -/
theorem SpellsStatement.of_line {tree : Stmt}
    (h : ∀ (lx : Lexer) (depth : Nat) (rest : List Char), AtLine style depth lx → k ≤ depth + 1 →
      lx.cursor.rest = cs ++ rest →
      ∃ before ts next s, Shift depth k before ∧ lx.Yields (before ++ ts) next ∧
        AtLine style k next ∧ next.cursor.rest = rest ∧ Statement digits ts s ∧ s.bare = tree) :
    SpellsStatement digits style k cs tree := by
  intro lx depth rest hlx hk hrest
  obtain ⟨before, ts, next, s, hshift, hyields, hnext, hleft, hs, hbare⟩ :=
    h lx depth rest hlx hk hrest
  refine ⟨before, ts, next, k, hshift, hyields, hnext, hleft, Nat.le_refl k, ?_⟩
  intro closing hclosing
  rw [hclosing.nil_of_self, List.append_nil]
  exact ⟨s, hs, hbare⟩

/-! ### Statements of one line -/

private theorem closes_blank (rest : List Char) :
    Closes (' ' :: rest) := closes_cons (by decide) rest

private theorem closes_break (rest : List Char) :
    Closes ('\n' :: rest) := closes_cons (by decide) rest

private theorem spellsStatement_output {own : Level} {tree : Expr}
    (hcs : Spells digits cs own tree) :
    SpellsStatement digits style k (style.line k ("<< ".toList ++ cs)) (.output tree default) := by
  refine .of_line fun lx depth rest hlx hk hrest => ?_
  have hword : ∀ more, IsLexeme Sign.output.spelling.toList (' ' :: more) (.sign .output) :=
    fun more => isLexeme_sign .output rfl
  obtain ⟨before, t, ts, e, last, next, hshift, hyields, ht, he, rfl, hlast, hnext, hleft⟩ :=
    hlx.header hk hword hcs hrest
  exact ⟨before, _, next, _, hshift, hyields, hnext, hleft, .output ht he hlast, rfl⟩

private theorem spellsStatement_assign {name : String} (hname : isNameText name = true)
    {own : Level}
    {tree : Expr} (hcs : Spells digits cs own tree) :
    SpellsStatement digits style k (style.line k (name.toList ++ " = ".toList ++ cs))
      (.assign name tree default) := by
  refine .of_line fun lx depth rest hlx hk hrest => ?_
  have hline : lx.cursor.rest =
      style.margin k ++ (name.toList ++ ' ' :: ('=' :: ' ' :: (cs ++ '\n' :: rest))) := by
    simp [hrest, IndentStyle.line]
  obtain ⟨before, n, mid, hshift, hn, htext, hyn, hmid, hblock, hleft⟩ :=
    hlx.first hk (isLexeme_name hname (closes_blank _)) hline
  obtain ⟨t, mid', ht, -, hyt, hmid', hblock', hleft'⟩ :=
    hblock.lexeme hmid (isLexeme_sign .assign rfl) hleft
  obtain ⟨ts, e, last, next, hts, he, rfl, hlast, hnext, hend⟩ :=
    hblock'.expression hmid' hcs hleft'
  refine ⟨before, n :: t :: ts ++ [last], next, _, hshift, ?_, hnext, hend,
    .assign hn ht he hlast, ?_⟩
  · simpa using hyn.trans (hyt.trans hts)
  · rw [htext, String.ofList_toList]
    rfl

/-- The start of an input statement. -/
theorem AtLine.input {lx : Lexer} (h : AtLine style depth lx) (hk : k ≤ depth + 1) {name : String}
    (hname : isNameText name = true) (hclose : Closes rest)
    (hrest : lx.cursor.rest = style.margin k ++ (">> ".toList ++ (name.toList ++ rest))) :
    ∃ before sign n next, Shift depth k before ∧ lx.Yields (before ++ [sign, n]) next ∧
      sign.kind = .sign .input ∧ n.kind = .name ∧ n.text = name ∧ next.InCode ∧
      InBlock style k next ∧ next.cursor.rest = rest := by
  have hsign : IsLexeme Sign.input.spelling.toList (' ' :: (name.toList ++ rest)) (.sign .input) :=
    isLexeme_sign .input rfl
  obtain ⟨before, t, mid, hshift, ht, -, hyt, hmid, hblock, hleft⟩ := h.first hk hsign hrest
  obtain ⟨n, next, hn, htext, hyn, hnext, hblock', hleft'⟩ :=
    hblock.lexeme hmid (isLexeme_name hname hclose) hleft
  refine ⟨before, t, n, next, hshift, ?_, ht, hn, ?_, hnext, hblock', hleft'⟩
  · simpa using hyt.trans hyn
  · rw [htext, String.ofList_toList]

private theorem spellsStatement_input {name : String} (hname : isNameText name = true) :
    SpellsStatement digits style k (style.line k (">> ".toList ++ name.toList))
      (.input name InputType.any.toJson default) := by
  refine .of_line fun lx depth rest hlx hk hrest => ?_
  obtain ⟨before, t, n, mid, hshift, hyields, ht, hn, rfl, hmid, hblock, hleft⟩ :=
    hlx.input hk hname (closes_break rest) (by simp [hrest, IndentStyle.line])
  obtain ⟨last, next, hlast, hyl, hnext, hend⟩ := hblock.lineEnd hmid hleft
  refine ⟨before, [t, n, last], next, _, hshift, ?_, hnext, hend, .input ht hn hlast, rfl⟩
  simpa using hyields.trans hyl

private theorem word_mem_inputWords {type : InputType} (h : type ≠ .any) :
    (type.word, type) ∈ inputWords := by
  cases type <;> first | exact absurd rfl h | decide

private theorem spellsStatement_typedInput {name : String} (hname : isNameText name = true)
    {type : InputType} (htype : type ≠ .any) :
    SpellsStatement digits style k
      (style.line k (">> ".toList ++ name.toList ++ " as ".toList ++ type.word.toList))
      (.input name type.toJson default) := by
  refine .of_line fun lx depth rest hlx hk hrest => ?_
  have has : isNameText "as" = true := by decide
  have hword : isNameText type.word = true := by cases type <;> decide
  obtain ⟨before, t, n, mid, hshift, hyields, ht, hn, rfl, hmid, hblock, hleft⟩ :=
    hlx.input hk hname (closes_blank ("as".toList ++ ' ' :: (type.word.toList ++ '\n' :: rest)))
      (by simp [hrest, IndentStyle.line])
  obtain ⟨a, mid₁, ha, hatext, hya, hmid₁, hblock₁, hleft₁⟩ :=
    hblock.lexeme hmid (isLexeme_name has (closes_blank _)) hleft
  obtain ⟨w, mid₂, hw, hwtext, hyw, hmid₂, hblock₂, hleft₂⟩ :=
    hblock₁.lexeme hmid₁ (isLexeme_name hword (closes_break rest)) hleft₁
  obtain ⟨last, next, hlast, hyl, hnext, hend⟩ := hblock₂.lineEnd hmid₂ hleft₂
  rw [String.ofList_toList] at hatext hwtext
  refine ⟨before, [t, n, a, w, last], next, _, hshift, ?_, hnext, hend,
    .typedInput ht hn ha hatext hw ?_ hlast, rfl⟩
  · simpa using hyields.trans (hya.trans (hyw.trans hyl))
  · exact hwtext ▸ word_mem_inputWords htype

/-! ### Blocks -/

theorem SpellsLines.mono {P Q : List Token → Prop} (h : SpellsLines style k cs P)
    (hPQ : ∀ ts, P ts → Q ts) : SpellsLines style k cs Q := by
  intro lx depth rest hlx hk hrest
  obtain ⟨before, ts, next, last, hshift, hyields, hnext, hleft, hlast, hspells⟩ :=
    h lx depth rest hlx hk hrest
  exact ⟨before, ts, next, last, hshift, hyields, hnext, hleft, hlast,
    fun closing hclosing => hPQ _ (hspells closing hclosing)⟩

theorem SpellsStatement.body {tree : Stmt} (h : SpellsStatement digits style k cs tree) :
    SpellsBody digits style k cs [tree] := by
  refine SpellsLines.mono h ?_
  rintro ts ⟨s, hs, rfl⟩
  refine ⟨[s], ?_, rfl⟩
  simpa using Statements.cons hs .nil

/-- The blocks that a statement leaves open are closed by the margin of the next one. -/
theorem SpellsStatement.more {tree : Stmt} {trees : List Stmt}
    (h : SpellsStatement digits style k cs tree) (h' : SpellsBody digits style k ds trees) :
    SpellsBody digits style k (cs ++ ds) (tree :: trees) := by
  intro lx depth rest hlx hk hrest
  obtain ⟨before, ts, mid, last, hshift, hyields, hmid, hleft, hlast, hspells⟩ :=
    h lx depth (ds ++ rest) hlx hk (by rw [hrest, List.append_assoc])
  obtain ⟨before', us, next, last', hshift', hyields', hnext, hleft', hlast', hspells'⟩ :=
    h' mid last rest hmid (by omega) hleft
  -- The next statement is in the same blocks, so its margin can only close blocks.
  obtain ⟨s, hs, hbare⟩ := hspells before' (hshift'.areDedents hlast)
  refine ⟨before, ts ++ before' ++ us, next, last', hshift, ?_, hnext, hleft', hlast', ?_⟩
  · simpa using hyields.trans hyields'
  · intro closing hclosing
    obtain ⟨ss, hss, hbares⟩ := hspells' closing hclosing
    refine ⟨s :: ss, ?_, ?_⟩
    · simpa using Statements.cons hs hss
    · rw [Stmt.bareAll, hbare, hbares]

/-- The body after the line of a header, up to the ends of the blocks that it leaves open. -/
theorem SpellsBody.block {trees : List Stmt} (h : SpellsBody digits style (k + 1) cs trees)
    {lx : Lexer} (hlx : AtLine style k lx) (hrest : lx.cursor.rest = cs ++ rest) :
    ∃ ts next last, lx.Yields ts next ∧ AtLine style last next ∧ next.cursor.rest = rest ∧
      k + 1 ≤ last ∧
      ∀ closing, AreDedents (last - k) closing →
        ∃ s, Block digits (ts ++ closing) s ∧ s.bare = .block trees default := by
  obtain ⟨before, ts, next, last, hshift, hyields, hnext, hleft, hlast, hspells⟩ :=
    h lx k rest hlx (Nat.le_refl _) hrest
  obtain ⟨o, rfl, ho⟩ : ∃ o, before = [o] ∧ o.kind = .indent := by
    cases hshift with
    | opens ho => exact ⟨_, rfl, ho⟩
    | closes hk _ => omega
  refine ⟨o :: ts, next, last, hyields, hnext, hleft, hlast, ?_⟩
  intro closing hclosing
  -- The last token closes this block, and those before it close the blocks in its body.
  obtain ⟨inner, c, rfl, hinner, hc⟩ := hclosing.split (by omega)
  obtain ⟨ss, hss, hbare⟩ := hspells inner (by rwa [Nat.sub_sub] at hinner)
  refine ⟨.block ss o.extent, ?_, ?_⟩
  · simpa using Block.indented ho hc hss
  · rw [Stmt.bare, hbare]

/-! ### Loops and choices -/

private theorem spellsStatement_loop {own : Level} {tree : Expr} {trees : List Stmt}
    (hcs : Spells digits cs own tree) (hds : SpellsBody digits style (k + 1) ds trees) :
    SpellsStatement digits style k (style.line k ("while ".toList ++ cs) ++ ds)
      (.loop tree (.block trees default) default) := by
  intro lx depth rest hlx hk hrest
  obtain ⟨before, t, ts, e, n, mid, hshift, hyields, ht, he, rfl, hn, hmid, hleft⟩ :=
    hlx.header hk (fun more => isLexeme_keyword .whileWord (closes_blank more)) hcs
      (by rw [hrest, List.append_assoc]; rfl)
  obtain ⟨us, next, last, hyields', hnext, hleft', hlast, hbody⟩ := hds.block hmid hleft
  refine ⟨before, t :: ts ++ n :: us, next, last, hshift, ?_, hnext, hleft', by omega, ?_⟩
  · simpa using hyields.trans hyields'
  · intro closing hclosing
    obtain ⟨s, hs, hbare⟩ := hbody closing hclosing
    refine ⟨.loop e s t.extent, ?_, ?_⟩
    · simpa using Statement.loop ht he hn hs
    · rw [Stmt.bare, hbare]

private theorem spellsStatement_choice {own : Level} {tree : Expr} {trees others : List Stmt}
    {otherwise : Stmt} {es : List Char} (hcs : Spells digits cs own tree)
    (hds : SpellsBody digits style (k + 1) ds trees)
    (hes : SpellsElse digits style k es others otherwise) :
    SpellsStatement digits style k (style.line k ("if ".toList ++ cs) ++ ds ++ es)
      (.choice (.branch tree (.block trees default) default) others otherwise default) := by
  intro lx depth rest hlx hk hrest
  obtain ⟨before, t, ts, e, n, mid, hshift, hyields, ht, he, rfl, hn, hmid, hleft⟩ :=
    hlx.header hk (fun more => isLexeme_keyword .ifWord (closes_blank more)) hcs
      (by rw [hrest, List.append_assoc, List.append_assoc]; rfl)
  obtain ⟨us, mid', last, hyields', hmid', hleft', hlast, hbody⟩ := hds.block hmid hleft
  obtain ⟨vs, next, last', hyields'', hnext, hleft'', hlast', helse⟩ :=
    hes mid' last rest hmid' hlast hleft'
  refine ⟨before, t :: ts ++ n :: us ++ vs, next, last', hshift, ?_, hnext, hleft'', by omega, ?_⟩
  · simpa using hyields.trans (hyields'.trans hyields'')
  · intro closing hclosing
    -- The blocks that the body leaves open are closed where the rest of the choice begins.
    obtain ⟨inner, ws, os, o, heq, hinner, hws, rfl, rfl⟩ := helse closing hclosing
    obtain ⟨s, hs, hbare⟩ := hbody inner hinner
    refine ⟨.choice (.branch e s t.extent) os o t.extent, ?_, ?_⟩
    · rw [List.append_assoc, heq]
      simpa using Statement.choice ht he hn hs hws
    · rw [Stmt.bare, Stmt.bare, hbare]

private theorem spellsElse_nothing : SpellsElse digits style k [] [] .absent := by
  intro lx depth rest hlx hk hrest
  refine ⟨[], lx, depth, ?_, hlx, hrest, hk, ?_⟩
  · rfl
  · intro closing hclosing
    exact ⟨closing, [], [], .absent, by simp, hclosing, .nothing, rfl, rfl⟩

private theorem spellsElse_otherwise {trees : List Stmt}
    (hds : SpellsBody digits style (k + 1) ds trees) :
    SpellsElse digits style k (style.line k "else".toList ++ ds) [] (.block trees default) := by
  intro lx depth rest hlx hk hrest
  have hline : lx.cursor.rest =
      style.margin k ++ (Keyword.elseWord.spelling.toList ++ '\n' :: (ds ++ rest)) := by
    simp [hrest, IndentStyle.line, Keyword.spelling]
  obtain ⟨before, t, mid, hshift, ht, -, hyt, hmid, hblock, hleft⟩ :=
    hlx.first (by omega) (isLexeme_keyword .elseWord (closes_break _)) hline
  obtain ⟨n, mid', hn, hyn, hmid', hleft'⟩ := hblock.lineEnd hmid hleft
  obtain ⟨us, next, last, hyields, hnext, hleft'', hlast, hbody⟩ := hds.block hmid' hleft'
  refine ⟨before ++ t :: n :: us, next, last, ?_, hnext, hleft'', hlast, ?_⟩
  · simpa using hyt.trans (hyn.trans hyields)
  · intro closing hclosing
    obtain ⟨s, hs, hbare⟩ := hbody closing hclosing
    exact ⟨before, t :: n :: (us ++ closing), [], s, by simp, hshift.areDedents (by omega),
      .otherwise ht hn hs, rfl, hbare⟩

private theorem spellsElse_branch {own : Level} {tree : Expr} {trees others : List Stmt}
    {otherwise : Stmt} {es : List Char} (hcs : Spells digits cs own tree)
    (hds : SpellsBody digits style (k + 1) ds trees)
    (hes : SpellsElse digits style k es others otherwise) :
    SpellsElse digits style k (style.line k ("else if ".toList ++ cs) ++ ds ++ es)
      (.branch tree (.block trees default) default :: others) otherwise := by
  intro lx depth rest hlx hk hrest
  have hline : lx.cursor.rest = style.margin k ++ (Keyword.elseWord.spelling.toList ++
      ' ' :: (Keyword.ifWord.spelling.toList ++ ' ' :: (cs ++ '\n' :: (ds ++ (es ++ rest))))) := by
    simp [hrest, IndentStyle.line, Keyword.spelling]
  obtain ⟨before, t, mid, hshift, ht, -, hyt, hmid, hblock, hleft⟩ :=
    hlx.first (by omega) (isLexeme_keyword .elseWord (closes_blank _)) hline
  obtain ⟨i, mid₁, hi, -, hyi, hmid₁, hblock₁, hleft₁⟩ :=
    hblock.lexeme hmid (isLexeme_keyword .ifWord (closes_blank _)) hleft
  obtain ⟨ts, e, n, mid₂, hts, he, rfl, hn, hmid₂, hleft₂⟩ :=
    hblock₁.expression hmid₁ hcs hleft₁
  obtain ⟨us, mid₃, last, hyields, hmid₃, hleft₃, hlast, hbody⟩ := hds.block hmid₂ hleft₂
  obtain ⟨vs, next, last', hyields', hnext, hleft', hlast', helse⟩ :=
    hes mid₃ last rest hmid₃ hlast hleft₃
  refine ⟨before ++ (t :: i :: ts ++ n :: us ++ vs), next, last', ?_, hnext, hleft', hlast', ?_⟩
  · simpa using hyt.trans (hyi.trans (hts.trans (hyields.trans hyields')))
  · intro closing hclosing
    obtain ⟨inner, ws, os, o, heq, hinner, hws, rfl, rfl⟩ := helse closing hclosing
    obtain ⟨s, hs, hbare⟩ := hbody inner hinner
    refine ⟨before, t :: i :: ts ++ n :: (us ++ inner) ++ ws,
      .branch e s (t.extent.join i.extent) :: os, o, ?_, hshift.areDedents (by omega),
      .branch ht hi he hn hs hws, ?_, rfl⟩
    · simp [heq]
    · rw [Stmt.bareAll, Stmt.bare, hbare]

mutual

/-- The lines of a statement spell its tree. -/
theorem spellsStatement_render (s : Sentence) (h : s.wellFormed = true) (k : Nat) :
    SpellsStatement digits style k (s.render style k) s.tree := by
  match s with
  | .assign name value =>
    rw [Sentence.wellFormed, Bool.and_eq_true] at h
    exact spellsStatement_assign h.1 (spells_render value h.2)
  | .output value => exact spellsStatement_output (spells_render value h)
  | .input name type =>
    cases type with
    | any => exact spellsStatement_input h
    | number => exact spellsStatement_typedInput h (by decide)
    | text => exact spellsStatement_typedInput h (by decide)
    | boolean => exact spellsStatement_typedInput h (by decide)
  | .loop condition body =>
    rw [Sentence.wellFormed, Bool.and_eq_true] at h
    exact spellsStatement_loop (spells_render condition h.1) (spellsBody_render body h.2 (k + 1))
  | .choice condition body rest =>
    rw [Sentence.wellFormed, Bool.and_eq_true, Bool.and_eq_true] at h
    exact spellsStatement_choice (spells_render condition h.1.1)
      (spellsBody_render body h.1.2 (k + 1)) (spellsElse_render rest h.2 k)

/-- The lines of a body spell the trees of its statements. -/
theorem spellsBody_render (b : Body) (h : b.wellFormed = true) (k : Nat) :
    SpellsBody digits style k (b.render style k) b.trees := by
  match b with
  | .one s => exact (spellsStatement_render s h k).body
  | .more s rest =>
    rw [Body.wellFormed, Bool.and_eq_true] at h
    exact (spellsStatement_render s h.1 k).more (spellsBody_render rest h.2 k)

/-- The lines of the rest of a choice spell its trees. -/
theorem spellsElse_render (e : ElsePart) (h : e.wellFormed = true) (k : Nat) :
    SpellsElse digits style k (e.render style k) e.others e.otherwiseTree := by
  match e with
  | .nothing => exact spellsElse_nothing
  | .otherwise body => exact spellsElse_otherwise (spellsBody_render body h (k + 1))
  | .branch condition body rest =>
    rw [ElsePart.wellFormed, Bool.and_eq_true, Bool.and_eq_true] at h
    exact spellsElse_branch (spells_render condition h.1.1)
      (spellsBody_render body h.1.2 (k + 1)) (spellsElse_render rest h.2 k)

end

/-! ### Programs -/

/-- The end of the source closes all open blocks. -/
theorem AtLine.finish {lx : Lexer} (h : AtLine style depth lx) (hrest : lx.cursor.rest = []) :
    ∃ closing last, lx.tokens = ⟨closing ++ [last], none⟩ ∧ AreDedents depth closing ∧
      last.kind = .sourceEnd := by
  have hread : lx.cursor.canRead = false := by simp [Cursor.canRead, hrest]
  have hstep : lx.step = .done
      (lx.indents.dropLast.map (fun _ => .atSpan .dedent "" lx.cursor.point) ++
        [.atSpan .sourceEnd "" lx.cursor.point]) := by
    simp [step, h.mode, hread, codeStep, Lexer.finish, h.lineClosed]
  refine ⟨_, _, by rw [tokens_eq, hstep], ⟨?_, ?_⟩, rfl⟩
  · rw [List.length_map, h.indents, style.length_dropLast_widths]
  · intro t ht
    obtain ⟨_, -, rfl⟩ := List.mem_map.mp ht
    rfl

/-- The tokens of written statements, after those that close the blocks before them. -/
theorem tokens_render {ss : List Sentence} (h : ss.all Sentence.wellFormed = true) {lx : Lexer}
    (hlx : AtLine style depth lx)
    (hrest : lx.cursor.rest = ss.flatMap (Sentence.render style 0)) :
    ∃ closing ts last body, lx.tokens = ⟨closing ++ (ts ++ [last]), none⟩ ∧
      AreDedents depth closing ∧ last.kind = .sourceEnd ∧ Statements digits ts body ∧
      Stmt.bareAll body = ss.map Sentence.tree := by
  induction ss generalizing lx depth with
  | nil =>
    obtain ⟨closing, last, htokens, hclosing, hlast⟩ := hlx.finish hrest
    exact ⟨closing, [], last, [], htokens, hclosing, hlast, .nil, rfl⟩
  | cons s ss ih =>
    rw [List.all_cons, Bool.and_eq_true] at h
    obtain ⟨before, ts, mid, deep, hshift, hyields, hmid, hleft, -, hspells⟩ :=
      spellsStatement_render s h.1 0 lx depth _ hlx (Nat.zero_le _) hrest
    obtain ⟨closing, us, last, body, htokens, hclosing, hlast, hbody, hbare⟩ := ih h.2 hmid hleft
    -- What closes the blocks before the other statements closes those in this statement.
    obtain ⟨s', hs, hbare'⟩ := hspells closing hclosing
    refine ⟨before, ts ++ closing ++ us, last, s' :: body, ?_, hshift.areDedents (Nat.zero_le _),
      hlast, .cons hs hbody, ?_⟩
    · rw [hyields, htokens]
      simp [Listing.prepend]
    · rw [Stmt.bareAll, hbare', hbare, List.map_cons]

/-- A text with no line break but line feeds. -/
def OnlyFeeds (cs : List Char) : Prop := ∀ c ∈ cs, isBreak c = true → c = '\n'

theorem OnlyFeeds.append (hcs : OnlyFeeds cs) (hds : OnlyFeeds ds) : OnlyFeeds (cs ++ ds) :=
  List.forall_mem_append.mpr ⟨hcs, hds⟩

private theorem OnlyFeeds.of_unbroken (h : Unbroken cs) : OnlyFeeds cs := by
  intro c hc hbreak
  rw [h c hc] at hbreak
  cases hbreak

private theorem normalizeBreaks_of_onlyFeeds (h : OnlyFeeds cs) : normalizeBreaks cs = cs := by
  induction cs with
  | nil => rfl
  | cons c cs ih =>
    obtain ⟨hc, hcs⟩ := List.forall_mem_cons.mp h
    have hreturn : c ≠ '\r' := by
      rintro rfl
      exact absurd (hc (by decide)) (by decide)
    rw [normalizeBreaks]
    · rw [ih hcs]
      by_cases hbreak : isBreak c = true
      · rw [if_pos hbreak, hc hbreak]
      · rw [if_neg hbreak]
    · rintro rest rfl
      exact absurd rfl hreturn

/-- The lexer starts at the start of a line, and no break of such a text is read as another one. -/
theorem atLine_ofText (style : IndentStyle) (h : OnlyFeeds cs) :
    AtLine style 0 (Lexer.ofText (String.ofList cs)) ∧
      (Lexer.ofText (String.ofList cs)).cursor.rest = cs := by
  refine ⟨⟨⟨rfl, rfl, Or.inl rfl⟩, rfl, rfl⟩, ?_⟩
  rw [Lexer.ofText, Cursor.ofText, String.toList_ofList, normalizeBreaks_of_onlyFeeds h]

private theorem onlyFeeds_line (style : IndentStyle) (k : Nat) (h : Unbroken cs) :
    OnlyFeeds (style.line k cs) := by
  have hblank : isBreak style.char = false := by
    have hindent := style.isIndentChar
    rw [Bool.eq_false_iff]
    intro hbreak
    rcases eq_of_isBreak hbreak with heq | heq | heq | heq | heq <;>
      exact absurd (heq ▸ hindent) (by decide)
  intro c hc hbreak
  simp only [IndentStyle.line, IndentStyle.margin, List.mem_append, List.mem_singleton] at hc
  rcases hc with (hc | hc) | hc
  · rw [List.eq_of_mem_replicate hc, hblank] at hbreak
    cases hbreak
  · exact OnlyFeeds.of_unbroken h c hc hbreak
  · exact hc

private theorem onlyFeeds_header (style : IndentStyle) (k : Nat) {word : List Char}
    (hword : word.all (!isBreak ·) = true) {t : Term} (ht : t.wellFormed = true) :
    OnlyFeeds (style.line k (word ++ t.render)) :=
  onlyFeeds_line style k ((unbroken_letters hword).append (unbroken_render t ht))

mutual

private theorem onlyFeeds_sentence (s : Sentence) (h : s.wellFormed = true) (k : Nat) :
    OnlyFeeds (s.render style k) := by
  match s with
  | .assign name value =>
    rw [Sentence.wellFormed, Bool.and_eq_true] at h
    exact onlyFeeds_line style k (((unbroken_name h.1).append (unbroken_letters (by decide))).append
      (unbroken_render value h.2))
  | .output value =>
    exact onlyFeeds_header style k (by decide) h
  | .input name type =>
    have hname : Unbroken (">> ".toList ++ name.toList) :=
      (unbroken_letters (by decide)).append (unbroken_name h)
    cases type with
    | any => exact onlyFeeds_line style k hname
    | _ =>
      exact onlyFeeds_line style k
        ((hname.append (unbroken_letters (by decide))).append (unbroken_letters (by decide)))
  | .loop condition body =>
    rw [Sentence.wellFormed, Bool.and_eq_true] at h
    exact (onlyFeeds_header style k (by decide) h.1).append (onlyFeeds_body body h.2 (k + 1))
  | .choice condition body rest =>
    rw [Sentence.wellFormed, Bool.and_eq_true, Bool.and_eq_true] at h
    exact ((onlyFeeds_header style k (by decide) h.1.1).append
      (onlyFeeds_body body h.1.2 (k + 1))).append (onlyFeeds_elsePart rest h.2 k)

private theorem onlyFeeds_body (b : Body) (h : b.wellFormed = true) (k : Nat) :
    OnlyFeeds (b.render style k) := by
  match b with
  | .one s => exact onlyFeeds_sentence s h k
  | .more s rest =>
    rw [Body.wellFormed, Bool.and_eq_true] at h
    exact (onlyFeeds_sentence s h.1 k).append (onlyFeeds_body rest h.2 k)

private theorem onlyFeeds_elsePart (e : ElsePart) (h : e.wellFormed = true) (k : Nat) :
    OnlyFeeds (e.render style k) := by
  match e with
  | .nothing => exact List.forall_mem_nil _
  | .otherwise body =>
    exact (onlyFeeds_line style k (unbroken_letters (by decide))).append
      (onlyFeeds_body body h (k + 1))
  | .branch condition body rest =>
    rw [ElsePart.wellFormed, Bool.and_eq_true, Bool.and_eq_true] at h
    exact ((onlyFeeds_header style k (by decide) h.1.1).append
      (onlyFeeds_body body h.1.2 (k + 1))).append (onlyFeeds_elsePart rest h.2 k)

end

/-- A written program is read back as the program it was written from, whatever its indentation:
only the spans are new. -/
theorem parseProgram_renderProgram (style : IndentStyle) (source : Source) {ss : List Sentence}
    (h : ss.all Sentence.wellFormed = true) (digits : DigitLimit) :
    ∃ p, parseProgram source (renderProgram style ss) digits = .ok p ∧ p.source = source ∧
      Stmt.bareAll p.statements = ss.map Sentence.tree := by
  have hfeeds : OnlyFeeds (ss.flatMap (Sentence.render style 0)) := by
    intro c hc
    obtain ⟨s, hs, hc⟩ := List.mem_flatMap.mp hc
    exact onlyFeeds_sentence s (List.all_eq_true.mp h s hs) 0 c hc
  obtain ⟨hline, hstart⟩ : AtLine style 0 (Lexer.ofText (renderProgram style ss)) ∧ _ :=
    atLine_ofText style hfeeds
  obtain ⟨closing, ts, last, body, htokens, hclosing, hlast, hbody, hbare⟩ :=
    tokens_render h hline hstart
  -- No block is open at the start, so nothing is closed before the first statement.
  obtain rfl : closing = [] := List.eq_nil_of_length_eq_zero hclosing.length
  have hmade := wellMade_of_mem_tokens (Lexer.ofText (renderProgram style ss))
  rw [htokens] at hmade
  have hparsed : parseTokens ⟨ts ++ [last], none⟩ digits = ⟨body, none⟩ :=
    parseTokens_of_grammar hmade (.statements hbody hlast)
  refine ⟨⟨body, source⟩, ?_, rfl, hbare⟩
  rw [parseProgram, parseText, tokensOf, htokens, List.nil_append, hparsed]
  rfl

/-- A loop with a choice in it. Its expressions need parentheses on the right of a difference,
under `not` and inside a hole, and its texts need escapes. -/
def nestedSentences : List Sentence :=
  [.input "n" .number,
    .loop
      (.unary .not (.binary .or (.binary .equal (.variable "n") (.integer 10)) (.boolean false)))
      (.more (.assign "n" (.binary .sub (.variable "n")
          (.binary .sub (.integer 1) (.unary .negate (.float ['0'] ['5'])))))
        (.one (.choice (.binary .less (.variable "n") (.integer 3))
          (.one (.output (.template [.text "\\\x7b\n", .binary .mul
            (.binary .add (.variable "n") (.integer 1)) (.template [.variable "n"])])))
          (.branch (.variable "été") (.one (.input "_x1" .any))
            (.otherwise (.one (.loop (.boolean true) (.one (.output (.text "")))))))))),
    .output (.text "end")]

theorem parseProgram_renderProgram_nestedSentences :
    nestedSentences.all Sentence.wellFormed = true ∧
      ∃ p, parseProgram .empty (renderProgram ⟨' ', 2, rfl, by decide⟩ nestedSentences) .standard
          = .ok p ∧
        p.source = .empty ∧ Stmt.bareAll p.statements = nestedSentences.map Sentence.tree := by
  have h : nestedSentences.all Sentence.wellFormed = true := by decide
  exact ⟨h, parseProgram_renderProgram _ _ h _⟩

/-! ### Outputs of digits -/

/-- The text of an output of digits. -/
def outputText (cs : List Char) : String := String.ofList ("<< ".toList ++ (cs ++ ['\n']))

/-- An output of digits starts with the sign of an output and one integer, however many digits there
are. -/
theorem tokensOf_outputText (hcs : Numeral.IsDigits cs) :
    ∃ o t rest, tokensOf (outputText cs) = ⟨o :: t :: rest, none⟩ ∧ o.kind = .sign .output ∧
      t.kind = .integer ∧ t.text = String.ofList cs := by
  let style : IndentStyle := ⟨' ', 1, rfl, Nat.one_pos⟩
  have hfeeds : OnlyFeeds ("<< ".toList ++ (cs ++ ['\n'])) := by
    have hsign : Unbroken "<< ".toList := unbroken_letters (by decide)
    have hend : OnlyFeeds ['\n'] := List.forall_mem_singleton.mpr fun _ => rfl
    exact .append (.of_unbroken hsign) (.append (.of_unbroken (unbroken_digits hcs)) hend)
  obtain ⟨hline, hrest⟩ := atLine_ofText style hfeeds
  obtain ⟨before, o, lx₁, hshift, ho, -, hy₁, hcode₁, hblock₁, hrest₁⟩ :=
    hline.first (Nat.zero_le _) (isLexeme_sign .output rfl) hrest
  obtain ⟨t, lx₂, ht, htext, hy₂, hcode₂, hblock₂, hrest₂⟩ :=
    hblock₁.lexeme hcode₁ (isLexeme_integer hcs (closes_break [])) hrest₁
  obtain ⟨last, lx₃, -, hy₃, hline₃, hrest₃⟩ := hblock₂.lineEnd hcode₂ hrest₂
  obtain ⟨closing, final, htokens, -, -⟩ := hline₃.finish hrest₃
  obtain rfl : before = [] :=
    List.eq_nil_of_length_eq_zero (hshift.areDedents (Nat.zero_le _)).length
  refine ⟨o, t, last :: (closing ++ [final]), ?_, ho, ht, htext⟩
  rw [tokensOf, outputText, hy₁, hy₂, hy₃, htokens]
  rfl

/-- An output of more digits than can be read is not parsed. -/
theorem parseText_outputText (hcs : Numeral.IsDigits cs) {most : Nat}
    (hmost : digits.exceeded? cs.length = some most) :
    parseText (outputText cs) digits = ⟨[], some (.badInteger (.tooLong most cs.length))⟩ := by
  obtain ⟨o, t, rest, htokens, ho, ht, htext⟩ := tokensOf_outputText hcs
  have hmade : ∀ t ∈ (tokensOf (outputText cs)).items, t.WellMade :=
    wellMade_of_mem_tokens (Lexer.ofText (outputText cs))
  rw [htokens] at hmade
  have hlength : t.text.length = cs.length := by rw [htext, String.length_ofList]
  rw [parseText, htokens, parseTokens_tooLong ho (hmade t (by simp)) ht (hlength ▸ hmost), hlength]

end DialogScript
