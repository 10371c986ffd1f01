import DialogScript.Proofs.Lexing.Steps
import DialogScript.Proofs.Parsing.Statements

/-!
# Errors of the parser

The parser can fail in ways that only tokens made by hand bring about: an operator that no table
has, a number that is none, a span without columns. On the tokens of a text it fails with a syntax
error, or at an integer that has more digits than can be read (`parseText_accounts`). The latter is
no error about the text, and it has no place in it. If the number of digits is not bounded, there
is no such error.
-/

namespace DialogScript

open Grammar

/-- The error of an integer among some tokens that has more digits than can be read. -/
inductive ParseError.TooLong (digits : DigitLimit) (tokens : List Token) : ParseError → Prop
  | integer {t : Token} {most : Nat} (ht : t ∈ tokens) (hkind : t.kind = .integer)
      (hmost : digits.exceeded? t.text.length = some most) :
      TooLong digits tokens (.badInteger (.tooLong most t.text.length))

/-- There is no such error if the bound admits the integers. -/
theorem Grammar.Admitted.not_tooLong {digits : DigitLimit} {tokens : List Token} {e : ParseError}
    (h : Admitted digits tokens) : ¬ e.TooLong digits tokens := by
  rintro ⟨ht, hkind, hmost⟩
  rw [DigitLimit.exceeded?_eq_none.mpr (h _ ht hkind)] at hmost
  cases hmost

namespace Feed

variable {f g : Feed} {ts : List Token} {e : ParseError}

/-- A complaint about a token with columns is a syntax error. -/
private theorem complaint_malformed {t : Token} (h : t.initial < t.final) (cause : SyntaxCause) :
    ∃ error, t.complaint cause = .malformed error := by
  simp [Token.complaint, Token.span, Span.make, h]

private theorem complaintAbout_malformed (hmade : g.WellMade) {t : Token}
    (ht : t.initial < t.final) (cause : SyntaxCause) :
    ∃ error, g.complaintAbout t cause = .malformed error := by
  unfold Feed.complaintAbout
  split
  · exact complaint_malformed hmade.current_columns cause
  · exact complaint_malformed ht cause

/-- What a feed snags at is a syntax error, or an integer that is too long. -/
theorem Snags.accounts (h : f.Snags e) (hmade : f.WellMade) :
    (∃ error, e = .malformed error) ∨ e.TooLong f.digits f.tokens := by
  obtain ⟨ts, g, hshows, hsnag⟩ := h
  have hrest := hmade.shows hshows
  cases hsnag with
  | fault | range => exact .inl ⟨_, rfl⟩
  | current => exact .inl (complaint_malformed hrest.current_columns _)
  | next => exact .inl (complaintAbout_malformed hrest hrest.following_columns _)
  | word _ ht =>
    exact .inl (complaintAbout_malformed hrest (hmade.shown hshows _ ht).columns _)
  | tooLong ht hkind hmost =>
    exact .inr (.integer (hshows.tokens ▸ List.mem_append_left _ ht) hkind (hshows.digits ▸ hmost))

/-- So is everything that a feed stops at. -/
theorem Stops.accounts (h : f.Stops e) (hmade : f.WellMade) :
    (∃ error, e = .malformed error) ∨ e.TooLong f.digits f.tokens := by
  cases h with
  | snag h => exact h.accounts hmade
  | body => exact .inl ⟨_, rfl⟩
  | unclosed hshows | unopened hshows =>
    exact .inl (complaint_malformed (hmade.shows hshows).current_columns _)

end Feed

/-- What a text makes up before its first error are statements of the grammar, made of tokens of
the text; the error is a syntax error, or an integer of the text is too long. -/
theorem parseText_accounts (text : String) (digits : DigitLimit) :
    (∃ ts rest, (tokensOf text).items = ts ++ rest ∧
      Statements digits ts (parseText text digits).items) ∧
      ∀ e, (parseText text digits).fault = some e →
        (∃ error, e = .malformed error) ∨ e.TooLong digits (tokensOf text).items := by
  have hmade : ∀ t ∈ (tokensOf text).items, t.WellMade := Lexer.wellMade_of_mem_tokens _
  obtain ⟨ts, g, hts, hshows, -, hfault⟩ := parseTokens_outcome digits hmade
  refine ⟨⟨ts, g.tokens, hshows.tokens, hts⟩, fun e he => ?_⟩
  rcases hfault e he with ⟨error, -, rfl⟩ | ⟨-, hstops⟩
  · exact .inl ⟨error, rfl⟩
  · exact hstops.accounts (.ofListing hmade digits)

end DialogScript
