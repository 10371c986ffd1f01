import DialogScript.Proofs.Lexing.Continuation
import DialogScript.Proofs.Parsing.Statements

/-!
# Statements that are complete

The parser gives a statement as soon as it is complete, and which statements are complete does
not depend on the text that follows. If a text that ends in a line break is a program, every
longer text has the same statements in front, up to the last one (`parseText_append`). The last
one is left out because an `else` or more lines of its block may follow.

Two facts carry this. The lexer reads the same lines in both texts (`keepsLines_append`), and the
two tokens that the parser looks ahead belong to the last statement, which has two tokens or more
in those lines (`two_left_of_statement`).
-/

namespace DialogScript

open Grammar

variable {digits : DigitLimit}

/-- A text with a fault is no program: the parser never comes to the end of its source. -/
theorem fault_eq_none_of_parseText {text : String} {ss : List Stmt}
    (h : parseText text digits = ⟨ss, none⟩) : (tokensOf text).fault = none := by
  by_contra hfault
  obtain ⟨e, he⟩ := Option.ne_none_iff_exists'.mp hfault
  have hends := kind_ne_sourceEnd_of_fault hfault
  have hmade : ∀ t ∈ (tokensOf text).items, t.WellMade := Lexer.wellMade_of_mem_tokens _
  unfold parseText parseTokens at h
  rcases Feed.start_cases (tokensOf text) digits with ⟨hstart, htwo⟩ | ⟨error, -, hstart⟩
  · rw [hstart] at h
    have hbetween : (Feed.ofListing (tokensOf text) digits).Between [] _ :=
      ⟨.ofListing hmade digits, .refl _, .nil⟩
    obtain ⟨ts, g, -, hshows, hend, -⟩ := Parser.statementsFrom_outcome hbetween .nil
    have hend := hend (congrArg Listing.fault h)
    -- Two tokens are known where the parser stops, so it stops at a token of the text.
    have hahead : Feed.hasTwo g.tokens = true := by
      by_cases hts : ts = []
      · subst hts
        rw [← hshows.eq_of_nil]
        exact htwo (by simp [he])
      · exact hshows.ahead hts (by simp [Feed.ofListing, he])
    obtain ⟨t, rest, hrest⟩ : ∃ t rest, g.tokens = t :: rest := by
      cases hg : g.tokens with
      | nil => simp [hg, Feed.hasTwo] at hahead
      | cons t rest => exact ⟨t, rest, rfl⟩
    have hcurrent : g.current = t := by simp [Feed.current, hrest]
    have hmem : t ∈ (tokensOf text).items := by
      have htokens : (tokensOf text).items = ts ++ g.tokens := hshows.tokens
      simp [htokens, hrest]
    exact hends t hmem (hcurrent ▸ hend)
  · rw [hstart] at h
    cases (Listing.mk.inj h).2

/-- The tokens of an accepted text are a program. -/
theorem grammar_of_parseText {text : String} {ss : List Stmt}
    (h : parseText text digits = ⟨ss, none⟩) :
    Grammar.Program digits (tokensOf text).items ss := by
  have hfault := fault_eq_none_of_parseText h
  obtain ⟨lines, closing, last, hlayout⟩ := completeLayout_of_fault_eq_none hfault
  have hlisting : tokensOf text = ⟨(tokensOf text).items, none⟩ := by rw [← hfault]
  rw [parseText, hlisting] at h
  exact grammar_of_parseTokens hlayout.endsOnce (Lexer.wellMade_of_mem_tokens _) h

namespace Parser

/-- The last of some statements has tokens of its own. -/
theorem split_last {ts : List Token} {ss : List Stmt} {s : Stmt}
    (h : Statements digits ts (ss ++ [s])) :
    ∃ us vs, ts = us ++ vs ∧ Statements digits us ss ∧ Statement digits vs s := by
  induction ss generalizing ts with
  | nil =>
    obtain _ | @⟨us, _, _, _, hfirst, hrest⟩ := h
    cases hrest
    exact ⟨[], us, by simp, .nil, hfirst⟩
  | cons first ss ih =>
    obtain _ | ⟨hfirst, hrest⟩ := h
    obtain ⟨us, vs, rfl, hus, hvs⟩ := ih hrest
    exact ⟨_, vs, (List.append_assoc _ _ _).symm, .cons hfirst hus, hvs⟩

private theorem ne_else_of_starts {kind : TokenKind} (h : startsStatement kind = true) :
    kind ≠ .keyword .elseWord := by
  rintro rfl
  exact absurd h (by decide)

/-- Before a statement, statements start with a token that starts one. -/
theorem starts_of_statements {f g : Feed} {ts : List Token} {ss : List Stmt}
    (h : Statements digits ts ss) (hshows : f.Shows ts g)
    (hnext : startsStatement g.current.kind = true) : startsStatement f.current.kind = true := by
  cases h with
  | nil =>
    obtain rfl := hshows.eq_of_nil
    exact hnext
  | cons hfirst hrest =>
    obtain ⟨t, rest, rfl, hstarts⟩ := statement_starts hfirst
    rwa [hshows.current]

/-- The parser gives the statements that it has been shown and goes on after them, if another
statement follows. -/
theorem statementsFrom_shown {ts : List Token} {ss : List Stmt} (h : Statements digits ts ss)
    {f g : Feed} (hdigits : f.digits = digits) (hmade : ∀ t ∈ ts, t.WellMade)
    (hshows : f.Shows ts g) (hnext : startsStatement g.current.kind = true) :
    statementsFrom f = (statementsFrom g).prepend ss := by
  induction ss generalizing ts f with
  | nil =>
    cases h with
    | nil =>
      obtain rfl := hshows.eq_of_nil
      rfl
  | cons s ss ih =>
    cases h with
    | cons h hrest =>
      obtain ⟨f₁, hshow, hshowRest⟩ := hshows.split
      have helse := ne_else_of_starts (starts_of_statements hrest hshowRest hnext)
      rw [statementsFrom_cons h hdigits (fun t ht => hmade t (by simp [ht])) hshow helse,
        ih hrest (hshow.digits.trans hdigits) (fun t ht => hmade t (by simp [ht])) hshowRest]
      rfl

end Parser

/-- Lines end with the end of a line. -/
theorem kind_of_getLast?_lines {lines : List TokenLine} (h : ∀ l ∈ lines, l.WellFormed) :
    ∀ t ∈ (lines.flatMap TokenLine.tokens).getLast?, t.kind = .lineEnd := by
  intro t ht
  rcases List.eq_nil_or_concat lines with rfl | ⟨front, l, rfl⟩
  · cases ht
  · have hlast : l.ending = t := by
      simpa [List.flatMap_append, TokenLine.tokens, ← List.append_assoc] using ht
    rw [← hlast]
    exact (h l (by simp)).ending

/-- Of a statement that ends with the lines and the blocks open after them, two tokens or more
stand in the lines. -/
theorem two_left_of_statement {full closing us vs : List Token} {s : Stmt}
    (hlast : ∀ t ∈ full.getLast?, t.kind = .lineEnd) (hclosing : ∀ t ∈ closing, t.kind = .dedent)
    (hs : Statement digits vs s) (htokens : full ++ closing = us ++ vs) :
    ∃ t x rest, full = us ++ t :: x :: rest ∧ Parser.startsStatement t.kind = true := by
  obtain ⟨t, vs, rfl, hstarts⟩ := Parser.statement_starts hs
  -- The first token of the statement is no end of a block, so it stands in the lines.
  obtain ⟨rest, rfl⟩ : ∃ rest, full = us ++ t :: rest := by
    rcases List.append_eq_append_iff.mp htokens with ⟨extra, rfl, hextra⟩ | ⟨extra, rfl, hextra⟩
    · have hdedent := hclosing t (by rw [hextra]; simp)
      rw [hdedent] at hstarts
      exact absurd hstarts (by decide)
    · cases extra with
      | nil =>
        have hdedent := hclosing t (by rw [← List.nil_append closing, ← hextra]; simp)
        rw [hdedent] at hstarts
        exact absurd hstarts (by decide)
      | cons x rest =>
        obtain ⟨rfl, -⟩ := List.cons.inj hextra
        exact ⟨rest, rfl⟩
  cases rest with
  | nil =>
    have hend := hlast t (by simp)
    rw [hend] at hstarts
    exact absurd hstarts (by decide)
  | cons x rest => exact ⟨t, x, rest, rfl, hstarts⟩

private theorem parseTokens_of_start {l : Listing Token SyntaxError} {f : Feed}
    (h : Feed.start l digits = .ok f) : parseTokens l digits = Parser.statementsFrom f := by
  rw [parseTokens, h]

/-- If the tokens of a program keep their lines in a longer listing, the parser finds all
statements but the last one in front of the longer listing. -/
theorem parseTokens_of_keepsLines {tokens : List Token} {longer : Listing Token SyntaxError}
    {ss : List Stmt} {s : Stmt} (hmade : ∀ t ∈ tokens, t.WellMade)
    (h : Grammar.Program digits tokens (ss ++ [s])) (hkeeps : KeepsLines tokens longer) :
    ∃ rest : Listing Stmt ParseError, parseTokens longer digits = rest.prepend ss := by
  obtain ⟨lines, closing, last, more, htokens, hlines, hclosing, rfl⟩ := hkeeps
  obtain @⟨ts, _, _, hts, -⟩ := h
  obtain ⟨hbody, -⟩ := List.append_singleton_inj.mp htokens
  obtain ⟨us, vs, rfl, hus, hvs⟩ := Parser.split_last hts
  obtain ⟨t, x, left, hfull, hstarts⟩ :=
    two_left_of_statement (kind_of_getLast?_lines hlines) hclosing hvs hbody.symm
  rw [hfull]
  have htwo : Feed.hasTwo (t :: x :: left ++ more.items) = true := rfl
  have hitems : (more.prepend (us ++ t :: x :: left)).items
      = us ++ (t :: x :: left ++ more.items) := List.append_assoc _ _ _
  -- The feed of the longer listing shows the tokens of all statements but the last.
  have hstart := Feed.start_of_hasTwo (l := more.prepend (us ++ t :: x :: left))
    (hitems ▸ Feed.hasTwo_append us htwo) digits
  have hshows : Feed.Shows ⟨(more.prepend (us ++ t :: x :: left)).items,
      Feed.endAfter (more.prepend (us ++ t :: x :: left)).items, more.fault, digits⟩ us
      ⟨t :: x :: left ++ more.items, _, more.fault, digits⟩ :=
    ⟨hitems, rfl, rfl, rfl, fun _ _ => htwo⟩
  have hparse := Parser.statementsFrom_shown hus rfl (fun u hu => hmade u (by simp [hu])) hshows
    hstarts
  exact ⟨_, (parseTokens_of_start hstart).trans hparse⟩

/-- Text after a program that ends in a line break leaves all its statements but the last one as
they are, whatever the text is. -/
theorem parseText_append {text : String} {source : Source} {program : Program} {x : Char}
    (h : parseProgram source text digits = .ok program) (hlast : text.toList.getLast? = some x)
    (hx : Text.isBreak x = true) (hsome : program.statements ≠ []) (after : String) :
    ∃ rest : Listing Stmt ParseError,
      parseText (text ++ after) digits = rest.prepend program.statements.dropLast := by
  obtain ⟨statements, hstatements, hprogram⟩ := bind_eq_ok.mp h
  obtain rfl := pure_eq_ok.mp hprogram
  obtain ⟨hitems, hfault⟩ := Listing.eq_of_toExcept hstatements
  have hparse : parseText text digits = ⟨statements, none⟩ := by rw [← hitems, ← hfault]
  have hkeeps := keepsLines_append hlast hx (fault_eq_none_of_parseText hparse) after
  have hgrammar : Grammar.Program digits (tokensOf text).items
      (statements.dropLast ++ [statements.getLast hsome]) := by
    rw [List.dropLast_concat_getLast]
    exact grammar_of_parseText hparse
  exact parseTokens_of_keepsLines (Lexer.wellMade_of_mem_tokens _) hgrammar hkeeps

/-- An accepted text has the statements of its program and no fault. -/
theorem parseProgram_eq_ok {source : Source} {text : String} {p : Program}
    (h : parseProgram source text digits = .ok p) :
    parseText text digits = ⟨p.statements, none⟩ ∧ p.source = source := by
  obtain ⟨ss, hss, hp⟩ := bind_eq_ok.mp h
  obtain ⟨hitems, hfault⟩ := Listing.eq_of_toExcept hss
  obtain rfl := pure_eq_ok.mp hp
  exact ⟨by rw [← hitems, ← hfault], rfl⟩

/-- A text whose tokens make up a program gives the statements of that program. -/
theorem parseText_of_grammar {text : String} {ts : List Token} {ss : List Stmt}
    (htokens : tokensOf text = ⟨ts, none⟩) (h : Grammar.Program digits ts ss) :
    parseText text digits = ⟨ss, none⟩ := by
  have hmade : ∀ t ∈ ts, t.WellMade := by
    have hall : ∀ t ∈ (tokensOf text).items, t.WellMade := Lexer.wellMade_of_mem_tokens _
    rwa [htokens] at hall
  rw [parseText, htokens, parseTokens_of_grammar hmade h]

/-- A text whose tokens make up a program is accepted as that program. -/
theorem parseProgram_of_grammar {text : String} {ts : List Token} {ss : List Stmt}
    (htokens : tokensOf text = ⟨ts, none⟩) (h : Grammar.Program digits ts ss) (source : Source) :
    parseProgram source text digits = .ok ⟨ss, source⟩ := by
  rw [parseProgram, parseText_of_grammar htokens h]
  rfl

/-- The tokens of a loop and a choice, each with one line in it. -/
def loopAndChoiceTokens : List Token :=
  [⟨.keyword .whileWord, "while", 1, 1, 6⟩, ⟨.name, "a", 1, 7, 8⟩, ⟨.lineEnd, "\n", 1, 8, 9⟩,
    ⟨.indent, "", 2, 1, 3⟩, ⟨.sign .output, "<<", 2, 3, 5⟩, ⟨.name, "b", 2, 6, 7⟩,
    ⟨.lineEnd, "\n", 2, 7, 8⟩, ⟨.dedent, "", 3, 1, 2⟩, ⟨.keyword .ifWord, "if", 3, 1, 3⟩,
    ⟨.name, "c", 3, 4, 5⟩, ⟨.lineEnd, "\n", 3, 5, 6⟩, ⟨.indent, "", 4, 1, 3⟩,
    ⟨.name, "d", 4, 3, 4⟩, ⟨.sign .assign, "=", 4, 5, 6⟩, ⟨.name, "e", 4, 7, 8⟩,
    ⟨.lineEnd, "\n", 4, 8, 9⟩, ⟨.dedent, "", 5, 1, 2⟩, ⟨.sourceEnd, "", 5, 1, 2⟩]

/-- A loop stays as it is before a choice that goes on with an `else` and a string without an
end. The carriage return that ends the shorter text is one break with the line feed after it. -/
theorem parseText_append_unclosed_else : ∃ program,
    parseProgram .empty "while a\r  << b\rif c\r  d = e\r" .standard = .ok program ∧
      program.statements.length = 2 ∧ ∃ rest : Listing Stmt ParseError,
        parseText ("while a\r  << b\rif c\r  d = e\r" ++ "\nelse\n  << \"f") .standard
          = rest.prepend program.statements.dropLast := by
  have htokens : tokensOf "while a\r  << b\rif c\r  d = e\r" = ⟨loopAndChoiceTokens, none⟩ := by
    decide +kernel
  have hloop : Statement .standard (loopAndChoiceTokens.take 8) _ :=
    .loop rfl (.whole (.variable rfl)) rfl
      (.indented rfl rfl (.cons (.output rfl (.whole (.variable rfl)) rfl) .nil))
  have hchoice : Statement .standard ((loopAndChoiceTokens.drop 8).take 9) _ :=
    .choice rfl (.whole (.variable rfl)) rfl
      (.indented rfl rfl (.cons (.assign rfl rfl (.whole (.variable rfl)) rfl) .nil)) .nothing
  have hderived : ∃ s s', Grammar.Program .standard loopAndChoiceTokens [s, s'] :=
    ⟨_, _, .statements (.cons hloop (.cons hchoice .nil)) rfl⟩
  obtain ⟨s, s', hderived⟩ := hderived
  have hparse := parseProgram_of_grammar htokens hderived .empty
  exact ⟨_, hparse, rfl, parseText_append hparse rfl (by decide) (by simp) _⟩

end DialogScript
