import DialogScript.Proofs.Lexing.BlockText
import DialogScript.Proofs.Parsing.Replacement
import DialogScript.Proofs.Parsing.Streaming
import DialogScript.Run

/-!
# Block strings stand for the texts that were written

An output of a block string gives the text that the string was written for, wherever in a program
an output may stand (`execute_blockString`). The place of the output is given by a program that
has the output of a literal there.

The parser joins the fragments of the string, of which each line has one and each break between
two lines has one (`expression_of_texts`).
-/

namespace DialogScript

open Text Grammar

variable {digits : DigitLimit}

namespace Grammar

/-- The pieces of a string without holes. -/
def fragments (ts : List Token) : List Piece := ts.map fun t => .fragment t.text t.extent

private theorem pieces_fragments {ts : List Token} (h : ∀ t ∈ ts, t.kind = .text) :
    Pieces digits ts (fragments ts) := by
  induction ts with
  | nil => exact .nil
  | cons t ts ih =>
    obtain ⟨ht, hts⟩ := List.forall_mem_cons.mp h
    exact .fragment ht (ih hts)

/-- Fragments next to each other are one text. -/
theorem parts_fragments (s : String) (p : Span) (ts : List Token) :
    ∃ q, Piece.parts (.fragment s p :: fragments ts) =
      [.text (String.ofList (s.toList ++ ts.flatMap fun t => t.text.toList)) q] := by
  induction ts generalizing s p with
  | nil => exact ⟨p, by simp [fragments, Piece.parts]⟩
  | cons t ts ih =>
    obtain ⟨q, hq⟩ := ih (s ++ t.text) (p.join t.extent)
    refine ⟨q, ?_⟩
    rw [fragments, List.map_cons, Piece.parts]
    simpa [fragments] using hq

/-- A string without holes is a text. -/
theorem expression_of_texts {start stop : Token} {ts : List Token} {cs : List Char}
    (hstart : start.kind = .stringStart) (hts : TextsOf cs ts) (hstop : stop.kind = .stringEnd) :
    ∃ span, Expression digits .primary (start :: ts ++ [stop])
      (.text (String.ofList cs) span) := by
  have hpieces : Pieces digits ts (fragments ts) := pieces_fragments hts.kinds
  have hstring := Expression.string hstart hstop hpieces
  cases ts with
  | nil =>
    obtain rfl : cs = [] := hts.texts.symm
    rw [fragments, List.map_nil, Piece.node, Piece.parts] at hstring
    exact ⟨_, hstring⟩
  | cons t ts =>
    obtain ⟨q, hq⟩ := parts_fragments t.text t.extent ts
    have htexts : t.text.toList ++ ts.flatMap (fun t => t.text.toList) = cs := hts.texts
    rw [fragments, List.map_cons, ← fragments, Piece.node, hq, htexts] at hstring
    exact ⟨_, hstring⟩

/-- The tokens of an expression go up to the end of the line. -/
theorem Expression.eq_of_append {level level' : Level} {ts us more more' : List Token}
    {e e' : Expr} {t u : Token} (h : Expression digits level ts e)
    (h' : Expression digits level' us e') (ht : t.kind = .lineEnd) (hu : u.kind = .lineEnd)
    (heq : ts ++ t :: more = us ++ u :: more') : ts = us := by
  have hleft {ts more : List Token} {t : Token} (hts : ∀ t ∈ ts, t.kind ≠ .lineEnd)
      (ht : t.kind = .lineEnd) : (ts ++ t :: more).takeWhile (·.kind != .lineEnd) = ts := by
    rw [List.takeWhile_append_of_pos (by simpa using hts),
      List.takeWhile_cons_of_neg (by simp [ht]), List.append_nil]
  rw [← hleft (h.kind_ne rfl) ht, heq, hleft (h'.kind_ne rfl) hu]

end Grammar

/-- The lines of an output of a block string: the opening quotes, the lines of the string and the
closing quotes. -/
def outputLines (margin : List Char) (quotes : Nat) (raws : List (List Char)) :
    List (List Char) :=
  (margin ++ "<< ".toList ++ List.replicate quotes '"') ::
    raws ++ [margin ++ List.replicate quotes '"']

private theorem unbroken_replicate {c : Char} (hc : isBreak c = false) (n : Nat) :
    Unbroken (List.replicate n c) := by
  intro d hd
  rw [List.eq_of_mem_replicate hd, hc]

private theorem isBreak_of_isIndentChar {c : Char} (h : Cursor.isIndentChar c = true) :
    isBreak c = false := by
  rw [Bool.eq_false_iff]
  intro hbreak
  rcases eq_of_isBreak hbreak with rfl | rfl | rfl | rfl | rfl <;> exact absurd h (by decide)

private theorem unbroken_outputLines {margin : List Char} {quotes : Nat} {raws : List (List Char)}
    (hmargin : Unbroken margin) (hraws : ∀ raw ∈ raws, Unbroken raw) :
    ∀ line ∈ outputLines margin quotes raws, Unbroken line := by
  have hquotes : Unbroken (List.replicate quotes '"') := unbroken_replicate (by decide) quotes
  have hsign : Unbroken "<< ".toList := unbroken_letters (by decide)
  intro line hline
  simp only [outputLines, List.mem_append, List.mem_cons, List.not_mem_nil, or_false] at hline
  rcases hline with (rfl | hline) | rfl
  · exact (hmargin.append hsign).append hquotes
  · exact hraws line hline
  · exact hmargin.append hquotes

/-- The lines can stand in the place of a line of a text. -/
theorem exists_text_of_outputLines {text : String} {above below raws : List (List Char)}
    {margin line : List Char} (htext : lines text.toList = above ++ [line] ++ below) (quotes : Nat)
    (hmargin : Unbroken margin) (hraws : ∀ raw ∈ raws, Unbroken raw) :
    ∃ text' : String, lines text'.toList = above ++ outputLines margin quotes raws ++ below := by
  have hold : ∀ line ∈ above ++ below, Unbroken line := by
    intro own hown
    have hmem : own ∈ lines text.toList := by
      rw [htext]
      simp only [List.mem_append] at hown ⊢
      tauto
    exact unbroken_of_mem_lines hmem
  obtain ⟨habove, hbelow⟩ := List.forall_mem_append.mp hold
  refine ⟨String.ofList (['\n'].intercalate (above ++ outputLines margin quotes raws ++ below)), ?_⟩
  rw [String.toList_ofList]
  refine lines_intercalate (by simp [outputLines]) ?_
  exact List.forall_mem_append.mpr ⟨List.forall_mem_append.mpr
    ⟨habove, unbroken_outputLines hmargin hraws⟩, hbelow⟩

/-- A block string gives the text that it was written for. A program may have `<< 0` on any line
that no string of the lines above goes on to. With the output of a block string there, behind the
same margin, it is a program again, and executing the output gives the text. -/
theorem execute_blockString {source : Source} {text₀ text s : String} {p : Program}
    {above below raws : List (List Char)} {ch : Char} {width quotes : Nat}
    (hch : Cursor.isIndentChar ch = true) (habove : lines text₀.toList = above ++ [[]])
    (htokens : ∃ ts, tokenize text₀ = .ok ts)
    (htext : lines text.toList =
      above ++ [List.replicate width ch ++ "<< 0".toList] ++ below)
    (hparse : parseProgram source text digits = .ok p)
    (hs : ∀ c ∈ s.toList, c ∉ ['#', '\u0085', '\u2028', '\u2029']) (hquotes : 3 ≤ quotes)
    (hrun : ¬List.replicate quotes '"' <:+: s.toList)
    (hraws : List.Forall₂ (WrittenLine (List.replicate width ch)) (splitBreaks s.toList) raws) :
    (∃ text' : String, lines text'.toList =
        above ++ outputLines (List.replicate width ch) quotes raws ++ below) ∧
      ∀ text' : String, lines text'.toList =
          above ++ outputLines (List.replicate width ch) quotes raws ++ below →
        ∃ p', parseProgram source text' digits = .ok p' ∧
          ∃ t ∈ p'.statements, ∃ e span, Stmt.Inside (.output e span) t ∧
            span.line = above.length + 1 ∧
            ∀ i r, (Run.execute i r (.output e span)).outcome = .item (.value (.text s)) := by
  have hparsed := (parseProgram_eq_ok hparse).1
  have hprogram := grammar_of_parseText hparsed
  obtain ⟨ts, hts⟩ := htokens
  refine ⟨?_, fun text' htext' => ?_⟩
  · have hmargin := unbroken_replicate (isBreak_of_isIndentChar hch) width
    exact exists_text_of_outputLines htext quotes hmargin (unbroken_of_written hmargin hs hraws)
  have hsame := tokensOf_blockText hch habove (Listing.eq_of_toExcept hts).2 (by simpa using htext)
    (fault_eq_none_of_parseText hparsed) hquotes (fun hmem => hs _ hmem (by simp)) hrun hraws
    (by simpa [outputLines] using htext')
  generalize htokens : tokensOf text = l, htokens' : tokensOf text' = l' at hsame
  obtain @⟨before, texts, rest, more, o, zero, start, stop, last, ho, holine, hzero, hstart,
    htexts, hstop, hlast, hrest⟩ := hsame
  obtain ⟨textSpan, hstring⟩ := expression_of_texts hstart htexts hstop
  -- The string takes the place of the literal.
  have hrewrites : Rewrites digits (before ++ o :: zero :: rest)
      (before ++ o :: (start :: texts ++ stop :: last :: more)) := by
    refine (Rewrites.of_sameLexemes (.refl before)).append (.same rfl ?_)
    simpa using Rewrites.literal hzero hstring (.of_sameLexemes hrest)
  rw [htokens] at hprogram
  obtain ⟨body, hprogram'⟩ := hprogram.rewrites hrewrites
  -- The output among the statements is the one of the string.
  obtain ⟨es, last', more', e, hes, hlast', he, t, ht, hin⟩ :=
    hprogram'.outputsIn o _ ho ⟨before, rfl⟩
  have heq : es = start :: texts ++ [stop] := by
    have hline : es ++ last' :: more' = start :: texts ++ [stop] ++ last :: more := by
      rw [← hes]
      simp
    exact he.eq_of_append hstring hlast' hlast hline
  have hmade : ∀ u ∈ before ++ o :: (start :: texts ++ stop :: last :: more), u.WellMade := by
    have hall := Lexer.wellMade_of_mem_tokens (Lexer.ofText text')
    rwa [← tokensOf, htokens'] at hall
  have hvalue : e = .text (String.ofList s.toList) textSpan := by
    refine Expression.unique (fun u hu => hmade u ?_) he (heq ▸ hstring.whole)
    rw [heq] at hu
    refine List.mem_append_right before (List.mem_cons_of_mem o ?_)
    simpa using List.mem_append_left (last :: more) hu
  refine ⟨_, parseProgram_of_grammar htokens' hprogram' source, t, ht, e, _, hin, ?_, ?_⟩
  · rw [Span.join_line, Token.extent_line (hmade o (by simp)).columns, holine]
  · intro i r
    rw [hvalue, String.ofList_toList]
    rfl

/-- The tokens of a program with the output of a literal in a block. -/
def literalTokens : List Token :=
  [⟨.keyword .ifWord, "if", 1, 1, 3⟩, ⟨.name, "a", 1, 4, 5⟩, ⟨.lineEnd, "\n", 1, 5, 6⟩,
    ⟨.indent, "", 2, 1, 3⟩, ⟨.sign .output, "<<", 2, 3, 5⟩, ⟨.integer, "0", 2, 6, 7⟩,
    ⟨.lineEnd, "\n", 2, 7, 8⟩, ⟨.dedent, "", 3, 1, 2⟩, ⟨.name, "x", 3, 1, 2⟩,
    ⟨.sign .assign, "=", 3, 3, 4⟩, ⟨.name, "a", 3, 5, 6⟩, ⟨.lineEnd, "\n", 3, 6, 7⟩,
    ⟨.sourceEnd, "", 3, 6, 7⟩]

/-- A text with empty lines first and last, of which one has a part of the margin, with blanks at
the start of a line, with quotes and with characters that are written as escapes. -/
theorem execute_blockString_escapes :
    let above := ["if a".toList]
    let below := ["x = a".toList]
    let margin := List.replicate 2 ' '
    let raws := [[' '], "  \"\"\\\x7b\\\\\\r".toList, "    x".toList, []]
    let text' := "if a\n  << \"\"\"\n \n  \"\"\\\x7b\\\\\\r\n    x\n\n  \"\"\"\nx = a"
    (∃ p, parseProgram .empty "if a\n  << 0\nx = a" .standard = .ok p) ∧
      lines "if a\n  << 0\nx = a".toList = above ++ [margin ++ "<< 0".toList] ++ below ∧
      lines text'.toList = above ++ outputLines margin 3 raws ++ below ∧
      ∃ p, parseProgram .empty text' .standard = .ok p ∧
        ∃ t ∈ p.statements, ∃ e span, Stmt.Inside (.output e span) t ∧ span.line = 2 ∧
          ∀ i r, (Run.execute i r (.output e span)).outcome =
            .item (.value (.text "\n\"\"\x7b\\\r\n  x\n")) := by
  intro above below margin raws text'
  have htext : lines "if a\n  << 0\nx = a".toList =
      above ++ [margin ++ "<< 0".toList] ++ below := by
    decide +kernel
  have htext' : lines text'.toList = above ++ outputLines margin 3 raws ++ below := by
    decide +kernel
  have habove : (tokenize "if a\n").toOption.isSome = true := by decide +kernel
  have htokens : tokensOf "if a\n  << 0\nx = a" = ⟨literalTokens, none⟩ := by decide +kernel
  have hzero : Expression .standard .primary [⟨.integer, "0", 2, 6, 7⟩] _ :=
    .shortInteger rfl (by decide) (by decide)
  have hchoice : Statement .standard (literalTokens.take 8) _ :=
    .choice rfl (.whole (.variable rfl)) rfl
      (.indented rfl rfl (.cons (.output rfl hzero.whole rfl) .nil)) .nothing
  have hassign : Statement .standard ((literalTokens.drop 8).take 4) _ :=
    .assign rfl rfl (.whole (.variable rfl)) rfl
  have hderived : ∃ s s', Grammar.Program .standard literalTokens [s, s'] :=
    ⟨_, _, .statements (.cons hchoice (.cons hassign .nil)) rfl⟩
  obtain ⟨s, s', hderived⟩ := hderived
  have hparse := parseProgram_of_grammar htokens hderived .empty
  have hplain : ∀ c ∈ "\n\"\"\x7b\\\r\n  x\n".toList, c ∉ ['#', '\u0085', '\u2028', '\u2029'] :=
    @of_decide_eq_true _ (List.decidableBAll _ _) (by decide +kernel)
  have hraws : List.Forall₂ (WrittenLine margin)
      (splitBreaks "\n\"\"\x7b\\\r\n  x\n".toList) raws :=
    .cons (.blank ⟨[' '], rfl⟩) (.cons (.whole _) (.cons (.whole _) (.cons (.blank ⟨_, rfl⟩) .nil)))
  refine ⟨⟨_, hparse⟩, htext, htext', ?_⟩
  cases hts : tokenize "if a\n" with
  | error e => simp [hts, Except.toOption] at habove
  | ok ts =>
    exact (execute_blockString rfl (by decide +kernel) ⟨ts, hts⟩ htext hparse
      hplain (by decide) (by decide +kernel) hraws).2 text' htext'

end DialogScript
