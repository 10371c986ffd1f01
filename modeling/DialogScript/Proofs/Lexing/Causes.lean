import DialogScript.Proofs.Lexing.Steps

/-!
# Causes of the lexer's errors

Which part of the reader an error comes from can be told from its cause: the lexer's errors are
about characters and lines, never about tokens (`isLexical_fault`). Each part of the lexer is gone
through once; what fails in it fails with such a cause.
-/

namespace DialogScript

/-- Whether a cause is about characters, before tokens are put together. -/
def SyntaxCause.isLexical : SyntaxCause → Bool
  | .mixedIndentation _ _ => true
  | .inconsistentIndentation => true
  | .unexpectedSymbol _ => true
  | .missingFraction => true
  | .unclosedString => true
  | .unclosedHole => true
  | .blockStringInHole => true
  | .invalidEscape _ => true
  | _ => false

namespace Lexer

variable {lx : Lexer} {e : SyntaxError}

/-- A margin fails by mixing its blanks. -/
private theorem readIndent_cause {limit : Option Nat} {c d : Cursor}
    (h : c.readIndent limit = (.error e, d)) : e.cause.isLexical = true := by
  fun_induction Cursor.readIndent limit c with
  | case1 | case2 | case4 | case8 => cases (Prod.mk.inj h).1
  | case3 | case5 | case6 =>
    rename_i ih
    exact ih h
  | case7 =>
    obtain rfl := Except.error.inj (Prod.mk.inj h).1
    rfl

/-- The text of a string fails at an escape. -/
private theorem readContent_cause {quotes : Nat} {c : Cursor}
    (h : readContent quotes c = .error e) : e.cause.isLexical = true := by
  unfold readContent at h
  split at h
  · cases h
  · obtain rfl := Except.error.inj h
    rfl

/-- A number fails for want of a fraction. -/
private theorem number_cause {c : Cursor} (h : number c = .error e) : e.cause.isLexical = true := by
  simp only [number] at h
  split at h
  · split at h
    · obtain rfl := Except.error.inj h
      rfl
    · cases h
  · cases h

/-- A string fails to open where a block string stands in a hole. -/
private theorem openString_cause {c : Cursor} (h : openString lx c = .error e) :
    e.cause.isLexical = true := by
  simp only [openString] at h
  split at h
  · split at h
    · obtain rfl := Except.error.inj h
      rfl
    · cases h
  · split at h <;> cases h

/-- Outside strings, a character is out of place, or a number or a string fails. -/
private theorem code_cause (h : lx.code = .error e) : e.cause.isLexical = true := by
  simp only [code] at h
  split at h
  · cases h
  split at h
  · split at h
    · obtain rfl := Except.error.inj h
      rfl
    · split at h <;> cases h
  split at h
  · split at h
    · cases h
    · rename_i hnumber
      obtain rfl := Except.error.inj h
      exact number_cause hnumber
  split at h
  · cases h
  split at h
  · exact openString_cause h
  split at h
  · cases h
  split at h
  · cases h
  · obtain rfl := Except.error.inj h
    rfl

/-- A string of one line fails at an escape, or it is not closed. -/
private theorem lineString_cause (h : lx.lineString = .error e) : e.cause.isLexical = true := by
  simp only [lineString] at h
  split at h
  · rename_i hcontent
    obtain rfl := Except.error.inj h
    exact readContent_cause hcontent
  · split at h
    · cases h
    · cases h
    · obtain rfl := Except.error.inj h
      rfl

/-- A line of a block string fails as a string of one line does, or a hole is not closed. -/
private theorem blockContent_cause {string : BlockString} {c : Cursor}
    (h : lx.blockContent string c = .error e) : e.cause.isLexical = true := by
  simp only [blockContent] at h
  split at h
  · rename_i hcontent
    obtain rfl := Except.error.inj h
    exact readContent_cause hcontent
  split at h
  · obtain rfl := Except.error.inj h
    rfl
  · cases h
  · cases h
  · split at h
    · cases h
    · obtain rfl := Except.error.inj h
      rfl

/-- The margin of a line in a block string is mixed, or less than the first one. -/
private theorem blockIndentation_cause {string : BlockString} {c : Cursor} {ts : List Token}
    (h : blockIndentation string c = (ts, .error e)) : e.cause.isLexical = true := by
  unfold blockIndentation at h
  split at h
  · rename_i hread
    obtain rfl := Except.error.inj (Prod.mk.inj h).2
    exact readIndent_cause hread
  dsimp only at h
  split at h
  · obtain rfl := Except.error.inj (Prod.mk.inj h).2
    rfl
  · cases (Prod.mk.inj h).2

/-- A step in a block string fails with its margin or with its text. -/
private theorem blockString_cause {string : BlockString}
    (h : (lx.blockString string).2 = .error e) : e.cause.isLexical = true := by
  unfold blockString at h
  split at h
  · split at h
    · rename_i hindent
      obtain rfl := Except.error.inj h
      exact blockIndentation_cause hindent
    · exact blockContent_cause h
  · exact blockContent_cause h

/-- The margin of a line is mixed, or between those of two open blocks. -/
private theorem lineIndentation_cause {ts : List Token} (h : lx.lineIndentation = (ts, .error e)) :
    e.cause.isLexical = true := by
  unfold lineIndentation at h
  split at h
  · rename_i hread
    obtain rfl := Except.error.inj (Prod.mk.inj h).2
    exact readIndent_cause hread
  dsimp only at h
  split at h
  · cases (Prod.mk.inj h).2
  split at h
  · cases (Prod.mk.inj h).2
  split at h
  · cases (Prod.mk.inj h).2
  · obtain rfl := Except.error.inj (Prod.mk.inj h).2
    rfl

/-- A step fails with the cause of the part that it takes. -/
private theorem stepTo_cause {before ts : List Token}
    {result : Except SyntaxError (List Token × Lexer)}
    (hresult : ∀ e, result = .error e → e.cause.isLexical = true)
    (h : stepTo lx before result = .fail ts e) : e.cause.isLexical = true := by
  unfold stepTo at h
  split at h
  · obtain ⟨-, rfl⟩ := LexerStep.fail.inj h
    exact hresult _ rfl
  · cases h

/-- A step outside strings fails in the code, or at the end of the source. -/
private theorem codeStep_cause {before ts : List Token} (h : codeStep lx before = .fail ts e) :
    e.cause.isLexical = true := by
  unfold codeStep at h
  split at h
  · exact stepTo_cause (fun _ => code_cause) h
  · unfold finish at h
    split at h
    · cases h
    · obtain ⟨-, rfl⟩ := LexerStep.fail.inj h
      rfl

/-- Every step of the lexer fails with a cause about characters. -/
private theorem step_cause {ts : List Token} (h : lx.step = .fail ts e) :
    e.cause.isLexical = true := by
  unfold step at h
  split at h
  · exact stepTo_cause (fun _ => lineString_cause) h
  · exact stepTo_cause (fun _ => blockString_cause) h
  · exact codeStep_cause h
  split at h
  · split at h
    · exact codeStep_cause h
    · rename_i hindent
      obtain ⟨-, rfl⟩ := LexerStep.fail.inj h
      exact lineIndentation_cause hindent
  · exact codeStep_cause h

end Lexer

/-- The fault of a text is about its characters. -/
theorem isLexical_fault {text : String} {e : SyntaxError} (h : (tokensOf text).fault = some e) :
    e.cause.isLexical = true := by
  refine Lexer.invariant_of_tokens (P := fun _ _ => True)
    (Q := fun listing => ∀ e, listing.fault = some e → e.cause.isLexical = true) ?_ ?_ ?_
    trivial e h
  · intros
    trivial
  · rintro acc lx ts - - e ⟨⟩
  · rintro acc lx ts e - hstep e' ⟨⟩
    exact Lexer.step_cause hstep

end DialogScript
