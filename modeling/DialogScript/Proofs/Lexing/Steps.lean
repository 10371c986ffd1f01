import DialogScript.Proofs.Lexing.Passage

/-!
# What a step of the lexer does

The steps of the lexer by what they do, whatever text they do it on: a step in code reads a
token, an end of line, an opening quote or a closing brace (`CodeMove`); a step in a string reads
text up to a hole, up to the end of the string or up to the end of the line (`StringMove`); at
the start of a line of code the indentation comes first (`Margin`). `step_more` and `step_done`
say that there are no other steps, and `invariant_of_tokens` carries what every step preserves
from the start of a text to its last token.
-/

namespace DialogScript

open Text

/-- A listing without a fault has the items that it comes to. -/
theorem Listing.eq_of_toExcept {α ε : Type} {l : Listing α ε} {items : List α}
    (h : l.toExcept = .ok items) : l.items = items ∧ l.fault = none := by
  unfold toExcept at h
  split at h
  · rename_i hfault
    exact ⟨Except.ok.inj h, hfault⟩
  · cases h

namespace Mode

/-- Whether text is read as the inside of a string. -/
def isString : Mode → Bool
  | .lineString => true
  | .blockString _ => true
  | _ => false

end Mode

namespace Lexer

variable {lx next : Lexer} {ts : List Token}

/-! ### Code -/

/-- A step in code, from the first place that is not blank on. -/
inductive CodeMove (lx : Lexer) : List Token → Lexer → Prop
  | blank (hrest : lx.cursor.skipBlanks.rest = []) :
      CodeMove lx [] (lx.moveTo lx.cursor.skipBlanks)
  | lineEnd {d : Cursor} {ch : Char} (hmode : lx.mode ≠ .hole)
      (hend : lx.cursor.skipBlanks.atLineEnd = true)
      (hread : lx.cursor.skipBlanks.read? = some (ch, d)) :
      CodeMove lx [.atSpan .lineEnd "\n" lx.cursor.skipBlanks.point] (lx.moveTo d)
  | token {d : Cursor} {t : Token} (hsimple : isSimple t.kind = true)
      (hreads : Reads lx.cursor.skipBlanks t d) : CodeMove lx [t] (lx.moveTo d)
  | openLine {quotes : List Char} {d : Cursor} (hpasses : lx.cursor.skipBlanks.Passes quotes d)
      (hquotes : quotes ≠ []) :
      CodeMove lx [tokenBetween .stringStart quotes lx.cursor.skipBlanks d]
        ((lx.moveTo d).push .lineString)
  | openBlock {quotes : List Char} {d : Cursor} {string : BlockString}
      (hpasses : lx.cursor.skipBlanks.Passes quotes d) (hquotes : quotes ≠ [])
      (hhole : .hole ∉ lx.modes) (hpending : string.pending = none)
      (hlong : 2 < (quoteRun lx.cursor.skipBlanks).1.length) :
      CodeMove lx [tokenBetween .stringStart quotes lx.cursor.skipBlanks d]
        ((lx.moveTo (skipLineEnd d)).push (.blockString string))
  | closeHole {d : Cursor} (hmode : lx.mode = .hole)
      (hpasses : lx.cursor.skipBlanks.Passes ['}'] d) :
      CodeMove lx [.atSpan .holeEnd "\x7d" lx.cursor.skipBlanks.point] (lx.moveTo d).pop

private theorem openString_cases {rest : List Char}
    (hrest : lx.cursor.skipBlanks.rest = '"' :: rest)
    (h : openString lx lx.cursor.skipBlanks = .ok (ts, next)) : CodeMove lx ts next := by
  have hpasses : lx.cursor.skipBlanks.Passes (quoteRun lx.cursor.skipBlanks).1
      (quoteRun lx.cursor.skipBlanks).2 := Cursor.passes_takeWhile _ (by decide)
  have hne : (quoteRun lx.cursor.skipBlanks).1 ≠ [] := Cursor.takeWhile_ne_nil hrest (by decide)
  simp only [openString] at h
  -- Three quotes or more open a string of many lines, two are an empty text, one opens a string.
  split at h
  · rename_i hlong
    split at h
    · cases h
    · rename_i hhole
      obtain ⟨rfl, rfl⟩ := Prod.mk.inj (Except.ok.inj h)
      exact .openBlock hpasses hne (by simpa using hhole) rfl hlong
  · split at h <;> rename_i htwo <;> obtain ⟨rfl, rfl⟩ := Prod.mk.inj (Except.ok.inj h)
    · have hquotes : (quoteRun lx.cursor.skipBlanks).1 = ['"', '"'] := by
        rw [List.eq_replicate_iff.mpr ⟨htwo, fun ch hch => ?_⟩]
        · rfl
        · simpa using List.all_eq_true.mp List.all_takeWhile _ hch
      exact .token rfl (reads_tokenBetween hpasses hne trivial (.inr ⟨rfl, hquotes⟩))
    · exact .openLine hpasses hne

/-- Every step in code is one of the moves. -/
theorem code_cases (h : lx.code = .ok (ts, next)) : CodeMove lx ts next := by
  -- The cases are those of the first character that is no blank.
  simp only [code] at h
  split at h
  · rename_i hrest
    obtain ⟨rfl, rfl⟩ := Prod.mk.inj (Except.ok.inj h)
    exact .blank hrest
  rename_i ch rest hrest
  split at h
  · rename_i hend
    split at h
    · cases h
    · rename_i hmode
      split at h
      · rename_i hread
        obtain ⟨rfl, rfl⟩ := Prod.mk.inj (Except.ok.inj h)
        exact .lineEnd hmode hend hread
      · -- A character is left, so it can be read.
        rename_i hread
        rw [Cursor.rest_eq_nil_of_read? hread] at hrest
        cases hrest
  split at h
  · rename_i hdigit
    split at h
    · rename_i t d hnumber
      obtain ⟨rfl, rfl⟩ := Prod.mk.inj (Except.ok.inj h)
      obtain ⟨hsimple, hreads⟩ := reads_number hrest hdigit hnumber
      exact .token hsimple hreads
    · cases h
  split at h
  · rename_i hname
    obtain ⟨rfl, rfl⟩ := Prod.mk.inj (Except.ok.inj h)
    obtain ⟨hsimple, hreads⟩ := reads_word hrest hname
    exact .token hsimple hreads
  split at h
  · rename_i hquote
    subst hquote
    exact openString_cases hrest h
  split at h
  · rename_i hbrace
    obtain ⟨rfl, hmode⟩ := hbrace
    obtain ⟨rfl, rfl⟩ := Prod.mk.inj (Except.ok.inj h)
    exact .closeHole hmode (Cursor.passes_one hrest (by decide))
  · split at h
    · rename_i s hsign
      obtain ⟨rfl, rfl⟩ := Prod.mk.inj (Except.ok.inj h)
      obtain ⟨hsimple, hreads⟩ := reads_sign hsign
      exact .token hsimple hreads
    · cases h

/-! ### Strings -/

/-- Tokens of text, as the inside of a string gives them. -/
def AreTexts (ts : List Token) : Prop := ∀ t ∈ ts, t.kind = .text ∧ t.WellMade

/-- Texts one after the other. -/
theorem areTexts_append {us : List Token} (hts : AreTexts ts) (hus : AreTexts us) :
    AreTexts (ts ++ us) := by
  intro t ht
  exact (List.mem_append.mp ht).elim (hts t) (hus t)

/-- The breaks that waited in front of the content of a block string are texts. -/
theorem areTexts_atSpan (spans : List Span) : AreTexts (spans.map (.atSpan .text "\n")) := by
  intro t ht
  obtain ⟨span, -, rfl⟩ := List.mem_map.mp ht
  exact ⟨rfl, trivial, span.nonempty⟩

/-- A step in a string, which is the top mode. -/
inductive StringMove (lx : Lexer) : List Token → Lexer → Prop
  | hole {texts : List Token} {c d : Cursor} {top : Mode} (htexts : AreTexts texts)
      (hreach : lx.cursor.Reaches c) (hpasses : c.Passes ['{'] d) (htop : top.isString = true) :
      StringMove lx (texts ++ [.atSpan .holeStart "\x7b" c.point])
        { lx with cursor := d, modes := .hole :: top :: lx.modes.tail }
  | close {texts : List Token} {t : Token} {c d : Cursor} {quotes : List Char}
      (htexts : AreTexts texts) (hreach : lx.cursor.Reaches c) (hpasses : c.Passes quotes d)
      (hquotes : quotes ≠ []) (hkind : t.kind = .stringEnd) (hmade : t.WellMade) :
      StringMove lx (texts ++ [t]) { lx with cursor := d, modes := lx.modes.tail }
  | lineBreak {texts : List Token} {d : Cursor} {top : Mode} (htexts : AreTexts texts)
      (hreach : lx.cursor.Reaches d) (htop : top.isString = true) :
      StringMove lx texts { lx with cursor := d, modes := top :: lx.modes.tail }

/-- A mode other than code is the top one of the stack. -/
theorem modes_eq_of_mode {m : Mode} (h : lx.mode = m) (hm : m ≠ .code) :
    lx.modes = m :: lx.modes.tail := by
  unfold mode at h
  cases hmodes : lx.modes with
  | nil =>
    rw [hmodes] at h
    exact absurd h.symm hm
  | cons top rest =>
    rw [hmodes] at h
    obtain rfl : top = m := h
    rfl

/-- What is read from a string of one line is a step in a string. -/
theorem lineString_cases (hmode : lx.mode = .lineString) (h : lx.lineString = .ok (ts, next)) :
    StringMove lx ts next := by
  have hmodes := modes_eq_of_mode hmode (by simp)
  simp only [lineString] at h
  split at h
  · cases h
  rename_i text c hcontent
  obtain ⟨raw, hraw, htext⟩ := readContent_passes hcontent
  have htexts : AreTexts (fragment text lx.cursor c) :=
    fun t ht => ⟨(mem_fragment hraw htext ht).1, (mem_fragment hraw htext ht).2.1⟩
  have hreach := Cursor.Reaches.of_passes hraw
  split at h
  · rename_i rest hrest
    obtain ⟨rfl, rfl⟩ := Prod.mk.inj (Except.ok.inj h)
    have hmove := StringMove.hole htexts hreach (Cursor.passes_one hrest (by decide))
      (show Mode.lineString.isString = true from rfl)
    rwa [← hmodes] at hmove
  · rename_i rest hrest
    obtain ⟨rfl, rfl⟩ := Prod.mk.inj (Except.ok.inj h)
    exact .close htexts hreach (Cursor.passes_one hrest (by decide)) (by simp) rfl
      ⟨trivial, columns_atSpan _ _ _⟩
  · cases h

/-- A cursor passes the quotes in front of it. -/
theorem passes_quotes {quotes : Nat} {c : Cursor}
    (hstarts : startsWithQuotes quotes c.rest = true) :
    c.Passes (List.replicate quotes '"') (c.forward quotes (c.rest.drop quotes)) := by
  have htake : c.rest.take quotes = List.replicate quotes '"' := by
    simpa [startsWithQuotes] using hstarts
  have hrest : c.rest = List.replicate quotes '"' ++ c.rest.drop quotes := by
    rw [← htake, List.take_append_drop]
  have hpasses := Cursor.passes_forward hrest (by simp)
  rwa [List.length_replicate] at hpasses

private theorem blockContent_cases {string : BlockString} {c₀ : Cursor}
    (hreach₀ : lx.cursor.Reaches c₀) (h : lx.blockContent string c₀ = .ok (ts, next)) :
    StringMove lx ts next := by
  simp only [blockContent] at h
  split at h
  · cases h
  rename_i text c hcontent
  obtain ⟨raw, hraw, htext⟩ := readContent_passes hcontent
  have hfragment : AreTexts (fragment text c₀ c) :=
    fun t ht => ⟨(mem_fragment hraw htext ht).1, (mem_fragment hraw htext ht).2.1⟩
  have htexts : AreTexts (lineBreak string.pending ++ fragment text c₀ c) :=
    areTexts_append (areTexts_atSpan _) hfragment
  have hreach := hreach₀.trans (Cursor.Reaches.of_passes hraw)
  split at h
  · cases h
  · rename_i rest hrest
    obtain ⟨rfl, rfl⟩ := Prod.mk.inj (Except.ok.inj h)
    exact .hole htexts hreach (Cursor.passes_one hrest (by decide)) rfl
  · rename_i rest hrest
    obtain ⟨rfl, rfl⟩ := Prod.mk.inj (Except.ok.inj h)
    have hpasses := passes_quotes (startsWithQuotes_of_readContent hcontent hrest)
    have hne : List.replicate string.quotes '"' ≠ [] := by
      simpa using Nat.ne_of_gt string.quotes_pos
    refine .close ?_ hreach hpasses hne rfl ⟨trivial, columns_tokenBetween hpasses hne⟩
    split
    · exact List.forall_mem_nil _
    · exact htexts
  · split at h
    · rename_i hread
      obtain ⟨rfl, rfl⟩ := Prod.mk.inj (Except.ok.inj h)
      exact .lineBreak htexts (hreach.trans (Cursor.Reaches.of_read? hread)) rfl
    · cases h

/-- The margin in a block string gives texts. -/
theorem blockIndentation_cases {string string' : BlockString} {c d : Cursor}
    (h : blockIndentation string c = (ts, .ok (string', d))) : AreTexts ts ∧ c.Reaches d := by
  unfold blockIndentation at h
  split at h
  · cases (Prod.mk.inj h).2
  · rename_i hread
    have hreach := Cursor.readIndent_reaches hread
    dsimp only at h
    split at h
    · cases (Prod.mk.inj h).2
    · obtain ⟨rfl, hok⟩ := Prod.mk.inj h
      obtain ⟨-, rfl⟩ := Prod.mk.inj (Except.ok.inj hok)
      exact ⟨areTexts_atSpan _, hreach⟩

theorem StringMove.prepend {before : List Token} (hbefore : AreTexts before)
    (h : StringMove lx ts next) : StringMove lx (before ++ ts) next := by
  cases h with
  | hole htexts hreach hpasses htop =>
    rw [← List.append_assoc]
    exact .hole (areTexts_append hbefore htexts) hreach hpasses htop
  | close htexts hreach hpasses hquotes hkind hmade =>
    rw [← List.append_assoc]
    exact .close (areTexts_append hbefore htexts) hreach hpasses hquotes hkind hmade
  | lineBreak htexts hreach htop =>
    exact .lineBreak (areTexts_append hbefore htexts) hreach htop

/-- What is read from a block string is a step in a string. -/
theorem blockString_cases {string : BlockString} {before : List Token}
    (h : lx.blockString string = (before, .ok (ts, next))) : StringMove lx (before ++ ts) next := by
  unfold blockString at h
  split at h
  · split at h
    · cases (Prod.mk.inj h).2
    · rename_i hindent
      obtain ⟨rfl, hok⟩ := Prod.mk.inj h
      obtain ⟨hbefore, hreach⟩ := blockIndentation_cases hindent
      exact (blockContent_cases hreach hok).prepend hbefore
  · obtain ⟨rfl, hok⟩ := Prod.mk.inj h
    exact blockContent_cases (.refl _) hok

/-! ### Steps -/

/-- The indentation of a line of code that is not empty. -/
inductive Margin (lx : Lexer) : List Token → Lexer → Prop
  | wider {level : Nat} {c : Cursor} (hread : lx.cursor.readIndent none = (.ok level, c))
      (hcan : c.canRead = true) (hwider : lx.indentation < level) :
      Margin lx [⟨.indent, "", c.line, lx.indentation + 1, level + 1⟩]
        { lx with cursor := c, indents := level :: lx.indents }
  | narrower {level : Nat} {c : Cursor} (hread : lx.cursor.readIndent none = (.ok level, c))
      (hcan : c.canRead = true) (hnarrower : level ≤ lx.indentation)
      (hopen : (lx.indents.dropWhile (level < ·)).headD 0 = level) :
      Margin lx
        ((lx.indents.takeWhile (level < ·)).map fun _ =>
          Token.atSpan .dedent "" (Span.point c.line (level + 1)))
        { lx with cursor := c, indents := lx.indents.dropWhile (level < ·) }

/-- Reading the indentation of a line comes to a margin or to the end of the source. -/
theorem lineIndentation_cases {before : List Token}
    (h : lx.lineIndentation = (before, .ok next)) :
    Margin lx before next ∨
      ∃ level c, lx.cursor.readIndent none = (.ok level, c) ∧ c.canRead = false ∧
        before = [] ∧ next = lx.moveTo c := by
  unfold lineIndentation at h
  split at h
  · cases (Prod.mk.inj h).2
  rename_i level c hread
  dsimp only at h
  split at h
  · rename_i hend
    obtain ⟨rfl, hok⟩ := Prod.mk.inj h
    exact .inr ⟨level, c, hread, by simpa using hend, rfl, (Except.ok.inj hok).symm⟩
  rename_i hcan
  have hcan : c.canRead = true := by simpa using hcan
  split at h
  · rename_i hwider
    obtain ⟨rfl, hok⟩ := Prod.mk.inj h
    obtain rfl := Except.ok.inj hok
    exact .inl (.wider hread hcan hwider)
  · rename_i hnarrower
    split at h
    · rename_i hopen
      obtain ⟨rfl, hok⟩ := Prod.mk.inj h
      obtain rfl := Except.ok.inj hok
      exact .inl (.narrower hread hcan (by omega) hopen)
    · cases (Prod.mk.inj h).2

/-- A step that goes on, up to the flag that says whether the line is open. -/
inductive Move (lx : Lexer) : List Token → Lexer → Prop
  | string {ts : List Token} {next : Lexer} (hmode : lx.mode.isString = true)
      (h : StringMove lx ts next) : Move lx ts next
  | inside {ts : List Token} {next : Lexer}
      (hmode : lx.mode = .hole ∨ lx.mode = .code ∧ lx.cursor.column ≠ 1)
      (h : CodeMove lx ts next) : Move lx ts next
  | line {before ts : List Token} {start next : Lexer} (hmode : lx.mode = .code)
      (hcolumn : lx.cursor.column = 1) (hmargin : Margin lx before start)
      (h : CodeMove start ts next) : Move lx (before ++ ts) next

theorem reaches_skipBlanks (c : Cursor) : c.Reaches c.skipBlanks :=
  .of_passes (Cursor.passes_skipBlanks c)

private theorem reaches_skipLineEnd (c : Cursor) : c.Reaches (skipLineEnd c) := by
  unfold skipLineEnd
  split
  · split
    · rename_i hread
      exact .of_read? hread
    · exact .refl c
  · exact .refl c

/-- A step in code goes forward. -/
theorem CodeMove.reaches (h : CodeMove lx ts next) : lx.cursor.Reaches next.cursor := by
  refine (reaches_skipBlanks lx.cursor).trans ?_
  cases h with
  | blank => exact .refl _
  | lineEnd _ _ hread => exact .of_read? hread
  | token _ hreads =>
    obtain ⟨_, hpasses, -⟩ := hreads.passes
    exact .of_passes hpasses
  | openLine hpasses => exact .of_passes hpasses
  | openBlock hpasses => exact (Cursor.Reaches.of_passes hpasses).trans (reaches_skipLineEnd _)
  | closeHole _ hpasses => exact .of_passes hpasses

theorem StringMove.reaches (h : StringMove lx ts next) : lx.cursor.Reaches next.cursor := by
  cases h with
  | hole _ hreach hpasses => exact hreach.trans (.of_passes hpasses)
  | close _ hreach hpasses => exact hreach.trans (.of_passes hpasses)
  | lineBreak _ hreach => exact hreach

theorem Margin.reaches (h : Margin lx ts next) : lx.cursor.Reaches next.cursor := by
  cases h with
  | wider hread | narrower hread => exact Cursor.readIndent_reaches hread

/-- Every step of the lexer goes forward. -/
theorem Move.reaches (h : Move lx ts next) : lx.cursor.Reaches next.cursor := by
  cases h with
  | string _ h => exact h.reaches
  | inside _ h => exact h.reaches
  | line _ _ hmargin h => exact hmargin.reaches.trans h.reaches

private theorem CodeMove.wellMade (h : CodeMove lx ts next) : ∀ t ∈ ts, t.WellMade := by
  cases h with
  | blank => exact List.forall_mem_nil _
  | lineEnd => simpa using ⟨trivial, columns_atSpan _ _ _⟩
  | token _ hreads => simpa using hreads.made
  | openLine hpasses hquotes | openBlock hpasses hquotes =>
    simpa using ⟨trivial, columns_tokenBetween hpasses hquotes⟩
  | closeHole => simpa using ⟨trivial, columns_atSpan _ _ _⟩

private theorem StringMove.wellMade (h : StringMove lx ts next) : ∀ t ∈ ts, t.WellMade := by
  intro t ht
  cases h with
  | hole htexts =>
    rcases List.mem_append.mp ht with ht | ht
    · exact (htexts t ht).2
    · obtain rfl := List.mem_singleton.mp ht
      exact ⟨trivial, columns_atSpan _ _ _⟩
  | close htexts _ _ _ _ hmade =>
    rcases List.mem_append.mp ht with ht | ht
    · exact (htexts t ht).2
    · obtain rfl := List.mem_singleton.mp ht
      exact hmade
  | lineBreak htexts => exact (htexts t ht).2

private theorem Margin.wellMade (h : Margin lx ts next) : ∀ t ∈ ts, t.WellMade := by
  intro t ht
  cases h with
  | wider _ _ hwider =>
    obtain rfl := List.mem_singleton.mp ht
    exact ⟨trivial, by dsimp only; omega⟩
  | narrower =>
    obtain ⟨_, -, rfl⟩ := List.mem_map.mp ht
    exact ⟨trivial, columns_atSpan _ _ _⟩

private theorem Move.wellMade (h : Move lx ts next) : ∀ t ∈ ts, t.WellMade := by
  cases h with
  | string _ h => exact h.wellMade
  | inside _ h => exact h.wellMade
  | line _ _ hmargin h =>
    intro t ht
    exact (List.mem_append.mp ht).elim (hmargin.wellMade t) (h.wellMade t)

theorem eq_of_stepTo {before : List Token} {result : Except SyntaxError (List Token × Lexer)}
    (h : stepTo lx before result = .more ts next) :
    ∃ own last, result = .ok (own, last) ∧ ts = before ++ own ∧
      next = { last with lineOpen := lineOpenAfter lx.lineOpen ts } := by
  unfold stepTo at h
  split at h
  · cases h
  · obtain ⟨rfl, rfl⟩ := LexerStep.more.inj h
    exact ⟨_, _, rfl, rfl, rfl⟩

/-- A step in code reads what there is and adds it to the tokens of the margin. -/
theorem eq_of_codeStep {before : List Token} (h : codeStep lx before = .more ts next) :
    lx.cursor.canRead = true ∧ ∃ own last, CodeMove lx own last ∧ ts = before ++ own ∧
      next = { last with lineOpen := lineOpenAfter lx.lineOpen ts } := by
  unfold codeStep at h
  split at h
  · rename_i hread
    obtain ⟨own, last, hcode, hts, hnext⟩ := eq_of_stepTo h
    exact ⟨hread, own, last, code_cases hcode, hts, hnext⟩
  · unfold finish at h
    split at h <;> cases h

/-- The tokens of a margin are indents and dedents. -/
theorem Margin.kinds (h : Margin lx ts next) : ∀ t ∈ ts, t.kind = .indent ∨ t.kind = .dedent := by
  intro t ht
  cases h with
  | wider =>
    obtain rfl := List.mem_singleton.mp ht
    exact .inl rfl
  | narrower =>
    obtain ⟨_, -, rfl⟩ := List.mem_map.mp ht
    exact .inr rfl

private theorem lineIndentation_error {e : SyntaxError} (h : lx.lineIndentation = (ts, .error e)) :
    ∀ t ∈ ts, t.kind = .dedent ∧ t.WellMade := by
  unfold lineIndentation at h
  split at h
  · rw [← (Prod.mk.inj h).1]
    exact List.forall_mem_nil _
  · dsimp only at h
    split at h
    · cases (Prod.mk.inj h).2
    split at h
    · cases (Prod.mk.inj h).2
    split at h
    · cases (Prod.mk.inj h).2
    · rw [← (Prod.mk.inj h).1]
      intro t ht
      obtain ⟨_, -, rfl⟩ := List.mem_map.mp ht
      exact ⟨rfl, trivial, columns_atSpan _ _ _⟩

/-- The tokens that come before the content of a line of a block string are texts. -/
theorem blockString_texts (string : BlockString) (lx : Lexer) :
    AreTexts (lx.blockString string).1 := by
  unfold blockString
  split
  · have htexts : AreTexts (blockIndentation string lx.cursor).1 := by
      unfold blockIndentation
      split
      · exact List.forall_mem_nil _
      · dsimp only
        split <;> exact areTexts_atSpan _
    split <;> rename_i hindent <;> rw [hindent] at htexts <;> exact htexts
  · exact List.forall_mem_nil _

/-- Every step that goes on is one of the moves. -/
theorem step_more (h : lx.step = .more ts next) :
    ∃ last, Move lx ts last ∧
      next = { last with lineOpen := lineOpenAfter lx.lineOpen ts } := by
  unfold step at h
  split at h
  · rename_i hmode
    obtain ⟨own, last, hstring, rfl, hnext⟩ := eq_of_stepTo h
    exact ⟨last, .string (by rw [hmode]; rfl) (lineString_cases hmode hstring), hnext⟩
  · rename_i string hmode
    obtain ⟨own, last, hstring, rfl, hnext⟩ := eq_of_stepTo h
    exact ⟨last, .string (by rw [hmode]; rfl) (blockString_cases (Prod.ext rfl hstring)), hnext⟩
  · rename_i hmode
    obtain ⟨-, own, last, hcode, rfl, hnext⟩ := eq_of_codeStep h
    exact ⟨last, .inside (.inl hmode) hcode, hnext⟩
  · rename_i hmode
    split at h
    · rename_i hstart
      have hcolumn : lx.cursor.column = 1 := by
        simp only [Bool.and_eq_true, Cursor.atLineStart, beq_iff_eq] at hstart
        exact hstart.1
      split at h
      · rename_i before start hindent
        obtain ⟨hread, own, last, hcode, rfl, hnext⟩ := eq_of_codeStep h
        -- Only a line with text goes on; the end of the source has nothing to read.
        rcases lineIndentation_cases hindent with hmargin | ⟨level, c, -, hend, -, rfl⟩
        · have hflag : start.lineOpen = lx.lineOpen := by cases hmargin <;> rfl
          exact ⟨last, .line hmode hcolumn hmargin hcode, hflag ▸ hnext⟩
        · rw [show (lx.moveTo c).cursor.canRead = false from hend] at hread
          cases hread
      · cases h
    · rename_i hstart
      obtain ⟨hread, own, last, hcode, rfl, hnext⟩ := eq_of_codeStep h
      have hcolumn : lx.cursor.column ≠ 1 := by
        simpa [hread, Cursor.atLineStart] using hstart
      exact ⟨last, .inside (.inr ⟨hmode, hcolumn⟩) hcode, hnext⟩

private theorem stepTo_ne_done (lx : Lexer) (before : List Token)
    (result : Except SyntaxError (List Token × Lexer)) (ts : List Token) :
    stepTo lx before result ≠ .done ts := by
  unfold stepTo
  split <;> simp

/-- Code is done only at the end of the source, and never in a hole. -/
theorem eq_of_codeStep_done {before : List Token} (h : codeStep lx before = .done ts) :
    lx.cursor.canRead = false ∧ lx.mode = .code ∧
      ts = before ++ (if lx.lineOpen then [.atSpan .lineEnd "\n" lx.cursor.point] else [])
        ++ lx.indents.dropLast.map (fun _ => .atSpan .dedent "" lx.cursor.point)
        ++ [.atSpan .sourceEnd "" lx.cursor.point] := by
  unfold codeStep at h
  split at h
  · exact absurd h (stepTo_ne_done _ _ _ _)
  · rename_i hread
    unfold finish at h
    split at h
    · rename_i hmode
      exact ⟨by simpa using hread, hmode, (LexerStep.done.inj h).symm⟩
    · cases h

/-- The place where the source ends: where the lexer stands, or where the blank lines after the
last line end. -/
inductive Ending (lx : Lexer) : Cursor → Prop
  | here (hend : lx.cursor.canRead = false) : Ending lx lx.cursor
  | blankLines {level : Nat} {c : Cursor} (hcolumn : lx.cursor.column = 1)
      (hread : lx.cursor.readIndent none = (.ok level, c)) (hend : c.canRead = false) : Ending lx c

theorem Ending.reaches {c : Cursor} (h : Ending lx c) : lx.cursor.Reaches c := by
  cases h with
  | here => exact .refl _
  | blankLines _ hread => exact Cursor.readIndent_reaches hread

/-- The last step closes the line and the blocks that are open. -/
theorem step_done (h : lx.step = .done ts) :
    lx.mode = .code ∧ ∃ c, Ending lx c ∧
      ts = (if lx.lineOpen then [.atSpan .lineEnd "\n" c.point] else [])
        ++ lx.indents.dropLast.map (fun _ => .atSpan .dedent "" c.point)
        ++ [.atSpan .sourceEnd "" c.point] := by
  unfold step at h
  split at h
  · exact absurd h (stepTo_ne_done _ _ _ _)
  · exact absurd h (stepTo_ne_done _ _ _ _)
  · rename_i hmode
    have hcode := (eq_of_codeStep_done h).2.1
    rw [hmode] at hcode
    cases hcode
  · rename_i hmode
    refine ⟨hmode, ?_⟩
    split at h
    · rename_i hstart
      have hcolumn : lx.cursor.column = 1 := by
        simp only [Bool.and_eq_true, Cursor.atLineStart, beq_iff_eq] at hstart
        exact hstart.1
      split at h
      · rename_i before start hindent
        obtain ⟨hread, -, hts⟩ := eq_of_codeStep_done h
        -- A margin ends at text, so the indentation was read up to the end of the source.
        rcases lineIndentation_cases hindent with hmargin | ⟨level, c, hlevel, hend, rfl, rfl⟩
        · have hcan : start.cursor.canRead = true := by
            cases hmargin <;> assumption
          rw [hcan] at hread
          cases hread
        · exact ⟨c, .blankLines hcolumn hlevel hend, hts⟩
      · cases h
    · obtain ⟨hend, -, hts⟩ := eq_of_codeStep_done h
      exact ⟨lx.cursor, .here hend, hts⟩

private theorem eq_of_stepTo_fail {before : List Token} {e : SyntaxError}
    {result : Except SyntaxError (List Token × Lexer)}
    (h : stepTo lx before result = .fail ts e) : ts = before := by
  unfold stepTo at h
  split at h
  · exact (LexerStep.fail.inj h).1.symm
  · cases h

private theorem eq_of_codeStep_fail {before : List Token} {e : SyntaxError}
    (h : codeStep lx before = .fail ts e) : ts = before := by
  unfold codeStep at h
  split at h
  · exact eq_of_stepTo_fail h
  · unfold finish at h
    split at h
    · cases h
    · exact (LexerStep.fail.inj h).1.symm

/-- The tokens before a fault close blocks, open one, or are texts. -/
theorem step_fail {e : SyntaxError} (h : lx.step = .fail ts e) :
    ∀ t ∈ ts, t.WellMade ∧ (t.kind = .text ∨ t.kind = .indent ∨ t.kind = .dedent) := by
  unfold step at h
  split at h
  · rw [eq_of_stepTo_fail h]
    exact List.forall_mem_nil _
  · rename_i string hmode
    rw [eq_of_stepTo_fail h]
    intro t ht
    obtain ⟨hkind, hmade⟩ := blockString_texts string lx t ht
    exact ⟨hmade, .inl hkind⟩
  · rw [eq_of_codeStep_fail h]
    exact List.forall_mem_nil _
  · split at h
    · split at h
      · rename_i before start hindent
        rw [eq_of_codeStep_fail h]
        rcases lineIndentation_cases hindent with hmargin | ⟨_, _, -, -, rfl, -⟩
        · exact fun t ht => ⟨hmargin.wellMade t ht, .inr (hmargin.kinds t ht)⟩
        · exact List.forall_mem_nil _
      · rename_i hindent
        rw [← (LexerStep.fail.inj h).1]
        exact fun t ht => ⟨(lineIndentation_error hindent t ht).2,
          .inr (.inr (lineIndentation_error hindent t ht).1)⟩
    · rw [eq_of_codeStep_fail h]
      exact List.forall_mem_nil _

/-- The tokens from a state on are those of its step and of the states after it. -/
theorem tokens_eq (lx : Lexer) :
    lx.tokens =
      match lx.step with
      | .done tokens => ⟨tokens, none⟩
      | .fail tokens e => ⟨tokens, some e⟩
      | .more tokens next => next.tokens.prepend tokens := by
  rw [tokens]
  split <;> simp_all

private theorem invariant_of_tokens_prepend {P : List Token → Lexer → Prop}
    {Q : Listing Token SyntaxError → Prop}
    (hmore : ∀ {acc lx ts next}, P acc lx → lx.step = .more ts next → P (acc ++ ts) next)
    (hdone : ∀ {acc lx ts}, P acc lx → lx.step = .done ts → Q ⟨acc ++ ts, none⟩)
    (hfail : ∀ {acc lx ts e}, P acc lx → lx.step = .fail ts e → Q ⟨acc ++ ts, some e⟩)
    {acc : List Token} {lx : Lexer} (h : P acc lx) : Q (lx.tokens.prepend acc) := by
  rw [tokens]
  split
  · rename_i hstep
    exact hdone h hstep
  · rename_i hstep
    exact hfail h hstep
  · rename_i own next hstep
    have hless := remaining_lt_of_step hstep
    have hrest := invariant_of_tokens_prepend hmore hdone hfail (hmore h hstep)
    unfold Listing.prepend at hrest ⊢
    rwa [List.append_assoc] at hrest
termination_by lx.remaining

/-- What every step preserves holds of all tokens of a text. -/
theorem invariant_of_tokens {P : List Token → Lexer → Prop} {Q : Listing Token SyntaxError → Prop}
    (hmore : ∀ {acc lx ts next}, P acc lx → lx.step = .more ts next → P (acc ++ ts) next)
    (hdone : ∀ {acc lx ts}, P acc lx → lx.step = .done ts → Q ⟨acc ++ ts, none⟩)
    (hfail : ∀ {acc lx ts e}, P acc lx → lx.step = .fail ts e → Q ⟨acc ++ ts, some e⟩)
    (h : P [] lx) : Q lx.tokens :=
  invariant_of_tokens_prepend hmore hdone hfail h

/-- The tokens of a text are well made. -/
theorem wellMade_of_mem_tokens (lx : Lexer) : ∀ t ∈ lx.tokens.items, t.WellMade := by
  refine invariant_of_tokens (P := fun acc _ => ∀ t ∈ acc, t.WellMade)
    (Q := fun listing => ∀ t ∈ listing.items, t.WellMade) ?_ ?_ ?_ (List.forall_mem_nil _)
  · intro acc lx ts next hacc hstep t ht
    obtain ⟨last, hmove, -⟩ := step_more hstep
    exact (List.mem_append.mp ht).elim (hacc t) (hmove.wellMade t)
  · intro acc lx ts hacc hstep t ht
    obtain ⟨-, c, -, rfl⟩ := step_done hstep
    simp only [List.mem_append, List.mem_map, List.mem_singleton] at ht
    rcases ht with ht | (ht | ⟨_, -, rfl⟩) | rfl
    · exact hacc t ht
    · split at ht
      · obtain rfl := List.mem_singleton.mp ht
        exact ⟨trivial, columns_atSpan _ _ _⟩
      · cases ht
    · exact ⟨trivial, columns_atSpan _ _ _⟩
    · exact ⟨trivial, columns_atSpan _ _ _⟩
  · intro acc lx ts e hacc hstep t ht
    exact (List.mem_append.mp ht).elim (hacc t) fun ht => (step_fail hstep t ht).1

end Lexer

end DialogScript
