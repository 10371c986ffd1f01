import DialogScript.Proofs.Lexing.Causes
import DialogScript.Proofs.Parsing.Extents

/-!
# Headers without a body

The header of a loop, of a branch or of an `else` has to be followed by an indented block. Where
it is not, the error is one column wide and just past the header's condition or past its `else`.
Among the tokens, that is past the last token of the header, as long as the header is on one line
and does not end with a parenthesis; where a string of many lines goes on below the header's line,
it is past the quotes that open the string (`missingBody_past_header`).
-/

namespace DialogScript

open Grammar

variable {digits : DigitLimit}

/-- Tokens that come to a header whose line ends and that nothing indented follows, with the
place just past the header's condition or its `else`. -/
inductive Lacks (digits : DigitLimit) (owner : BodyOwner) : Span → List Token → Prop
  | body {before header after : List Token} {last : Token} {span : Span}
      (hbefore : Leads digits before) (hheader : Header digits owner header span)
      (hlast : last.kind = .lineEnd) (hafter : ∀ t ∈ after.head?, t.kind ≠ .indent) :
      Lacks digits owner span.after (before ++ header ++ last :: after)

/-! ### The parser -/

namespace Feed

variable {f g : Feed} {owner : BodyOwner} {place : Span} {cause : SyntaxCause}

private theorem complaint_ne_missingBody {t : Token} (h : cause.asksForBody = false) :
    t.complaint cause ≠ .malformed ⟨.missingBody owner, place⟩ := by
  unfold Token.complaint
  split
  · rintro heq
    obtain rfl := congrArg SyntaxError.cause (ParseError.malformed.inj heq)
    cases h
  · rintro ⟨⟩

private theorem complaintAbout_ne_missingBody {t : Token} (h : cause.asksForBody = false) :
    g.complaintAbout t cause ≠ .malformed ⟨.missingBody owner, place⟩ := by
  unfold Feed.complaintAbout
  split <;> exact complaint_ne_missingBody h

/-- What a feed snags at is not a missing body, if the fault behind it is about characters. -/
theorem Snags.ne_missingBody {e : ParseError} (h : f.Snags e)
    (hfault : ∀ error, f.fault = some error → error.cause.isLexical = true) :
    e ≠ .malformed ⟨.missingBody owner, place⟩ := by
  obtain ⟨ts, g, hshows, hsnag⟩ := h
  cases hsnag with
  | fault h =>
    rintro ⟨⟩
    cases hfault _ (hshows.fault ▸ h)
  | current hcause => exact complaint_ne_missingBody hcause
  | next hcause | word hcause => exact complaintAbout_ne_missingBody hcause
  | range | tooLong => rintro ⟨⟩

/-- If a feed stops at a missing body, its tokens come to a header without one. -/
theorem Stops.lacks (h : f.Stops (.malformed ⟨.missingBody owner, place⟩)) (hmade : f.WellMade)
    (hfault : ∀ error, f.fault = some error → error.cause.isLexical = true) :
    Lacks f.digits owner place f.tokens := by
  generalize he : ParseError.malformed ⟨.missingBody owner, place⟩ = e at h
  cases h with
  | snag h => exact absurd he.symm (h.ne_missingBody hfault)
  | body hbefore hheader hshows hline hnext =>
    obtain ⟨hcause, rfl⟩ := SyntaxError.mk.inj (ParseError.malformed.inj he)
    obtain rfl := SyntaxCause.missingBody.inj hcause
    obtain ⟨after, htokens⟩ := (hmade.shows hshows).tokens_eq (by rw [hline]; decide)
    rw [hshows.tokens, htokens]
    refine .body hbefore hheader hline fun t ht => ?_
    obtain ⟨more, rfl⟩ := List.head?_eq_some_iff.mp ht
    rw [Feed.following, htokens] at hnext
    exact hnext
  | unclosed | unopened => exact absurd he.symm (complaint_ne_missingBody rfl)

end Feed

/-- If a text is missing a body, its tokens come to a header without one. -/
theorem lacks_of_parseText {text : String} {owner : BodyOwner} {place : Span}
    (h : (parseText text digits).fault = some (.malformed ⟨.missingBody owner, place⟩)) :
    Lacks digits owner place (tokensOf text).items := by
  have hmade : ∀ t ∈ (tokensOf text).items, t.WellMade := Lexer.wellMade_of_mem_tokens _
  obtain ⟨-, -, -, -, -, hstops⟩ := parseTokens_outcome digits hmade
  rcases hstops _ h with ⟨_, hlexer, ⟨⟩⟩ | ⟨-, hstops⟩
  · cases isLexical_fault hlexer
  · exact hstops.lacks (.ofListing hmade digits) fun _ => isLexical_fault

/-! ### Texts that start with a header -/

/-- A choice whose condition nothing indented follows is missing a body. -/
theorem Parser.choice_missingBody {f g : Feed} {keyword : Token} {ts : List Token} {e : Expr}
    (hkeyword : keyword.kind = .keyword .ifWord) (he : Expression f.digits .disjunction ts e)
    (hmade : ∀ t ∈ ts, t.WellMade) (hshows : f.Shows (keyword :: ts) g)
    (hline : g.current.kind = .lineEnd) (hnext : g.following.kind ≠ .indent) :
    statement f = .error (.malformed ⟨.missingBody .branch, e.span.after⟩) := by
  obtain ⟨f₁, hshow, hshowCondition⟩ := hshows.split_cons
  have hcloses : Level.closes g.current.kind = true := by rw [hline]; rfl
  obtain ⟨hg, hcondition⟩ := expression_complete he hshow.digits hmade hshowCondition hcloses
  have hcurrent : f.current.kind = .keyword .ifWord := by rw [hshow.current, hkeyword]
  have hbody : body g e.span .branch
      = .error (.malformed ⟨.missingBody .branch, e.span.after⟩) := by
    rw [body, if_neg (not_not_intro hline), if_pos hnext]
  rw [statement, hcurrent]
  simp only [choice, Feed.take_complete hshow, hcondition, hbody, bind, Except.bind]

/-- A text that starts with a choice without a body. -/
theorem parseText_missingBody {text : String} {keyword newline : Token} {ts after : List Token}
    {e : Expr} (htokens : tokensOf text = ⟨keyword :: ts ++ newline :: after, none⟩)
    (hkeyword : keyword.kind = .keyword .ifWord) (he : Expression digits .disjunction ts e)
    (hnewline : newline.kind = .lineEnd) (hafter : ∀ t ∈ after.head?, t.kind ≠ .indent) :
    (parseText text digits).fault = some (.malformed ⟨.missingBody .branch, e.span.after⟩) := by
  have hmade : ∀ t ∈ (tokensOf text).items, t.WellMade := Lexer.wellMade_of_mem_tokens _
  rw [htokens] at hmade
  have hending : (Feed.endAfter (keyword :: ts ++ newline :: after)).kind = .sourceEnd := by
    unfold Feed.endAfter
    split <;> rfl
  rw [parseText, htokens, parseTokens]
  dsimp only [Feed.start]
  generalize Feed.endAfter (keyword :: ts ++ newline :: after) = ending at hending
  have hstatement :
      Parser.statement ⟨keyword :: ts ++ newline :: after, ending, none, digits⟩ = _ :=
    Parser.choice_missingBody (g := ⟨newline :: after, ending, none, digits⟩) hkeyword he
      (fun t ht => hmade t (by simp [ht])) ⟨rfl, rfl, rfl, rfl, fun _ hfault => by cases hfault⟩
      hnewline ?_
  · have hkind : (⟨keyword :: ts ++ newline :: after, ending, none, digits⟩ : Feed).current.kind
        ≠ .sourceEnd := by
      rw [show Feed.current ⟨keyword :: ts ++ newline :: after, ending, none, digits⟩ = keyword
        from rfl, hkeyword]
      decide
    rw [Parser.statementsFrom, if_neg hkind, hstatement]
  · cases after with
    | nil =>
      rw [show Feed.following ⟨[newline], ending, none, digits⟩ = ending from rfl, hending]
      decide
    | cons t after => exact hafter t rfl

/-! ### The place of the error -/

namespace Grammar

variable {owner : BodyOwner} {ts : List Token} {span : Span}

/-- A keyword in front of tokens stands on their line. -/
theorem keyword_measured {keyword first last : Token} {word : Keyword}
    (hkeyword : keyword.kind = .keyword word) (h : Measured digits ts span first last)
    (hrow : Row (keyword :: ts)) : Measured digits (keyword :: ts) span keyword last := by
  have hmeet := hrow.meet_cons h.head (.inl (by rw [hkeyword]; rfl))
  have hcolumns := hrow.columns keyword (by simp)
  have hline := h.line
  have hinitial := h.initial
  exact ⟨rfl, by omega, by omega, h.ends.prepend [keyword]⟩

theorem Header.measured (h : Header digits owner ts span) (hrow : Row ts) :
    ∃ first last, Measured digits ts span first last := by
  cases h with
  | loop hkeyword h | branch hkeyword h =>
    obtain ⟨first, last, hmeasured⟩ := h.measured hrow.tail
    exact ⟨_, last, keyword_measured hkeyword hmeasured hrow⟩
  | elseBranch hkeyword hsecond h =>
    obtain ⟨first, last, hmeasured⟩ := h.measured hrow.tail.tail
    have hbranch := keyword_measured hsecond hmeasured hrow.tail
    exact ⟨_, last, keyword_measured hkeyword hbranch hrow⟩
  | otherwise hkeyword => exact ⟨_, _, Token.measured (hrow.columns _ (by simp))⟩

end Grammar

/-- Wherever a body is missing, the tokens of the text come to its header, which nothing indented
follows, and the error is one column wide, on the line of the header's first token: past the last
token of the header if that is on this line and no closing parenthesis, and past the quotes of a
string that is opened on this line if the header goes on below. -/
theorem missingBody_past_header {text : String} {digits : DigitLimit} {owner : BodyOwner}
    {place : Span}
    (h : (parseText text digits).fault = some (.malformed ⟨.missingBody owner, place⟩)) :
    ∃ (before header after : List Token) (newline first last : Token) (span : Span),
      (tokensOf text).items = before ++ header ++ newline :: after ∧ Leads digits before ∧
      Header digits owner header span ∧ newline.kind = .lineEnd ∧
      (∀ t ∈ after.head?, t.kind ≠ .indent) ∧ header.head? = some first ∧
      place = .point first.line place.initial ∧
      EndsLine digits first.line place.initial header last := by
  have hlacks := lacks_of_parseText h
  generalize htokens : (tokensOf text).items = tokens at hlacks
  obtain @⟨before, header, after, newline, span, hbefore, hheader, hline, hafter⟩ := hlacks
  have hrows := (inRows_tokensOf htokens hline).right
  have hmade : ∀ t ∈ (tokensOf text).items, t.WellMade := Lexer.wellMade_of_mem_tokens _
  rw [htokens] at hmade
  have hrow : Row header := ⟨hrows, hheader.own, fun t ht => (hmade t (by simp [ht])).columns⟩
  obtain ⟨first, last, hmeasured⟩ := hheader.measured hrow
  refine ⟨before, header, after, newline, first, last, span, rfl, hbefore, hheader, hline, hafter,
    hmeasured.head, ?_, ?_⟩
  · rw [hmeasured.line]
    rfl
  · rw [hmeasured.line]
    exact hmeasured.ends

theorem missingBody_past_header_hole :
    (parseText "if \"\x7ba\x7d\"\n" .standard).fault
        = some (.malformed ⟨.missingBody .branch, .point 1 9⟩) ∧
      ∃ (before header after : List Token) (newline first last : Token) (span : Span),
        (tokensOf "if \"\x7ba\x7d\"\n").items = before ++ header ++ newline :: after ∧
        Leads .standard before ∧ Header .standard .branch header span ∧ newline.kind = .lineEnd ∧
        (∀ t ∈ after.head?, t.kind ≠ .indent) ∧ header.head? = some first ∧
        Span.point 1 9 = .point first.line (Span.point 1 9).initial ∧
        EndsLine .standard first.line (Span.point 1 9).initial header last := by
  have htokens : tokensOf "if \"\x7ba\x7d\"\n"
      = ⟨⟨.keyword .ifWord, "if", 1, 1, 3⟩ :: [⟨.stringStart, "\"", 1, 4, 5⟩,
          ⟨.holeStart, "\x7b", 1, 5, 6⟩, ⟨.name, "a", 1, 6, 7⟩, ⟨.holeEnd, "\x7d", 1, 7, 8⟩,
          ⟨.stringEnd, "\"", 1, 8, 9⟩] ++ ⟨.lineEnd, "\n", 1, 9, 10⟩ ::
          [⟨.sourceEnd, "", 2, 1, 2⟩], none⟩ := by decide +kernel
  have hcondition : Expression .standard .disjunction [⟨.stringStart, "\"", 1, 4, 5⟩,
      ⟨.holeStart, "\x7b", 1, 5, 6⟩, ⟨.name, "a", 1, 6, 7⟩, ⟨.holeEnd, "\x7d", 1, 7, 8⟩,
      ⟨.stringEnd, "\"", 1, 8, 9⟩] _ :=
    .whole (@Expression.string _ _ _ [_, _, _] _ rfl rfl
      (@Pieces.hole _ _ _ [_] _ _ _ rfl rfl (.whole (.variable rfl)) .nil))
  have hfault : (parseText "if \"\x7ba\x7d\"\n" .standard).fault
      = some (.malformed ⟨.missingBody .branch, .point 1 9⟩) := by
    rw [parseText_missingBody htokens rfl hcondition rfl (by simp), Piece.node_span]
    rfl
  exact ⟨hfault, missingBody_past_header hfault⟩

/-- A text that starts with a header without a body, whose error is not past the last token of
the header. -/
def ReportedAside (text : String) : Prop :=
  ∃ (header after : List Token) (newline last : Token) (span place : Span),
    (tokensOf text).items = header ++ newline :: after ∧ Header .standard .branch header span ∧
    newline.kind = .lineEnd ∧ (∀ t ∈ after.head?, t.kind ≠ .indent) ∧
    header.getLast? = some last ∧
    (parseText text .standard).fault = some (.malformed ⟨.missingBody .branch, place⟩) ∧
    place ≠ .point last.line last.final

/-- The error is not past the last token if the condition goes on below the header's line, or if
it ends with a parenthesis. -/
theorem missingBody_aside :
    ReportedAside "if \"\"\"\na\n\"\"\"\n" ∧ ReportedAside "if (true)\n<< 1" := by
  constructor
  · have htokens : tokensOf "if \"\"\"\na\n\"\"\"\n"
        = ⟨⟨.keyword .ifWord, "if", 1, 1, 3⟩ :: [⟨.stringStart, "\"\"\"", 1, 4, 7⟩,
            ⟨.text, "a", 2, 1, 2⟩, ⟨.stringEnd, "\"\"\"", 3, 1, 4⟩] ++
            ⟨.lineEnd, "\n", 3, 4, 5⟩ :: [⟨.sourceEnd, "", 4, 1, 2⟩], none⟩ := by decide +kernel
    have hcondition : Expression .standard .disjunction [⟨.stringStart, "\"\"\"", 1, 4, 7⟩,
        ⟨.text, "a", 2, 1, 2⟩, ⟨.stringEnd, "\"\"\"", 3, 1, 4⟩] _ :=
      .whole (@Expression.string _ _ _ [_] _ rfl rfl (.fragment rfl .nil))
    exact ⟨_, _, _, _, _, _, congrArg Listing.items htokens, .branch rfl hcondition, rfl, by simp,
      rfl, parseText_missingBody htokens rfl hcondition rfl (by simp), by decide +kernel⟩
  · have htokens : tokensOf "if (true)\n<< 1"
        = ⟨⟨.keyword .ifWord, "if", 1, 1, 3⟩ :: [⟨.sign .openParen, "(", 1, 4, 5⟩,
            ⟨.keyword .trueWord, "true", 1, 5, 9⟩, ⟨.sign .closeParen, ")", 1, 9, 10⟩] ++
            ⟨.lineEnd, "\n", 1, 10, 11⟩ :: [⟨.sign .output, "<<", 2, 1, 3⟩,
            ⟨.integer, "1", 2, 4, 5⟩, ⟨.lineEnd, "\n", 2, 5, 6⟩, ⟨.sourceEnd, "", 2, 5, 6⟩],
          none⟩ := by decide +kernel
    have hcondition : Expression .standard .disjunction [⟨.sign .openParen, "(", 1, 4, 5⟩,
        ⟨.keyword .trueWord, "true", 1, 5, 9⟩, ⟨.sign .closeParen, ")", 1, 9, 10⟩] _ :=
      .whole (@Expression.parenthesized _ _ _ [_] _ rfl rfl (.whole (.trueWord rfl)))
    exact ⟨_, _, _, _, _, _, congrArg Listing.items htokens, .branch rfl hcondition, rfl, by simp,
      rfl, parseText_missingBody htokens rfl hcondition rfl (by simp), by decide +kernel⟩

end DialogScript
