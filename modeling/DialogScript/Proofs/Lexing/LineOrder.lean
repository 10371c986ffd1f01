import DialogScript.Proofs.Lexing.Steps

/-!
# Words, signs and ends of lines

Tokens are read from top to bottom, so the lines of the words, of the signs and of the ends of
lines never go down from one token to the next. Past the end of a line, the next word or sign
stands on a later line (`Lexer.inLineOrder_tokens`). Strings that span lines change nothing about
this.
-/

namespace DialogScript

/-- Whether a kind of tokens is a word or a sign, as the first token of every statement is. -/
def TokenKind.isLead : TokenKind → Bool
  | .keyword _ => true
  | .name => true
  | .sign _ => true
  | _ => false

/-- Two tokens are in the order of their lines, as far as they are words, signs or ends of lines;
after the end of a line a word or a sign is on a later line. -/
structure Token.Precedes (a b : Token) : Prop where
  lead_lineEnd : a.kind.isLead = true → b.kind = .lineEnd → a.line ≤ b.line
  lineEnd_lead : a.kind = .lineEnd → b.kind.isLead = true → a.line < b.line

/-- Tokens in the order of their lines. -/
def InLineOrder (ts : List Token) : Prop := ts.Pairwise Token.Precedes

namespace Lexer

/-- Whether a token is a word, a sign or the end of a line. -/
def isMark (t : Token) : Bool := t.kind.isLead || t.kind == .lineEnd

/-- The tokens read so far are in order, and none of them is below the cursor. -/
structure AboveCursor (acc : List Token) (c : Cursor) : Prop where
  inOrder : InLineOrder acc
  lead : ∀ t ∈ acc, t.kind.isLead = true → t.line ≤ c.line
  lineEnd : ∀ t ∈ acc, t.kind = .lineEnd → t.line < c.line

variable {acc ts : List Token} {c d : Cursor} {lx next : Lexer}

private theorem precedes_of_not_mark {a b : Token} (h : isMark b = false) : a.Precedes b := by
  simp only [isMark, Bool.or_eq_false_iff, beq_eq_false_iff_ne] at h
  refine ⟨fun _ hb => absurd hb h.2, fun _ hb => ?_⟩
  rw [h.1] at hb
  cases hb

private theorem inLineOrder_append_of_not_mark (h : InLineOrder acc)
    (hts : ∀ t ∈ ts, isMark t = false) :
    InLineOrder (acc ++ ts) := by
  refine List.pairwise_append.mpr ⟨h, ?_, fun a _ b hb => precedes_of_not_mark (hts b hb)⟩
  exact List.pairwise_of_forall_mem_list fun a _ b hb => precedes_of_not_mark (hts b hb)

/-- More tokens that are neither words nor signs nor ends of lines. -/
theorem AboveCursor.append (h : AboveCursor acc c) (hts : ∀ t ∈ ts, isMark t = false)
    (hline : c.line ≤ d.line) : AboveCursor (acc ++ ts) d := by
  refine ⟨inLineOrder_append_of_not_mark h.inOrder hts, fun t ht hkind => ?_, fun t ht hkind => ?_⟩
  · rcases List.mem_append.mp ht with ht | ht
    · have := h.lead t ht hkind
      omega
    · have hmark := hts t ht
      simp [isMark, hkind] at hmark
  · rcases List.mem_append.mp ht with ht | ht
    · have := h.lineEnd t ht hkind
      omega
    · have hmark := hts t ht
      simp [isMark, hkind] at hmark

private theorem AboveCursor.inLineOrder_concat {t : Token} (h : AboveCursor acc c)
    (ht : (c.line : Int) ≤ t.line) : InLineOrder (acc ++ [t]) := by
  refine List.pairwise_append.mpr ⟨h.inOrder, List.pairwise_singleton _ _, fun a ha b hb => ?_⟩
  obtain rfl := List.mem_singleton.mp hb
  refine ⟨fun hkind _ => ?_, fun hkind _ => ?_⟩
  · have := h.lead a ha hkind
    omega
  · have := h.lineEnd a ha hkind
    omega

/-- One more token, on the line of the cursor. -/
theorem AboveCursor.concat {t : Token} (h : AboveCursor acc c) (ht : t.line = c.line)
    (hline : c.line ≤ d.line) (hend : t.kind = .lineEnd → c.line < d.line) :
    AboveCursor (acc ++ [t]) d := by
  refine ⟨h.inLineOrder_concat (by omega), fun u hu hkind => ?_, fun u hu hkind => ?_⟩
  · rcases List.mem_append.mp hu with hu | hu
    · have := h.lead u hu hkind
      omega
    · rw [List.mem_singleton.mp hu]
      omega
  · rcases List.mem_append.mp hu with hu | hu
    · have := h.lineEnd u hu hkind
      omega
    · rw [List.mem_singleton.mp hu] at hkind ⊢
      have := hend hkind
      omega

private theorem not_mark_of_areTexts (h : AreTexts ts) : ∀ t ∈ ts, isMark t = false := by
  intro t ht
  simp [isMark, TokenKind.isLead, (h t ht).1]

theorem AboveCursor.codeMove (h : AboveCursor acc lx.cursor) (hmove : CodeMove lx ts next) :
    AboveCursor (acc ++ ts) next.cursor := by
  have hblank := (Cursor.passes_skipBlanks lx.cursor).line
  have hline := hmove.reaches.line_le
  cases hmove with
  | blank => exact h.append (by simp) hline
  | lineEnd _ hend hread =>
    -- The only token that goes with its cursor to the next line.
    have hnext := (Cursor.nextLine_of_read? hend hread).1
    exact h.concat (congrArg Int.ofNat hblank) hline fun _ => by
      simp [moveTo, hnext, hblank]
  | token hsimple hreads =>
    refine h.concat (hreads.line.trans (congrArg Int.ofNat hblank)) hline fun hkind => ?_
    rw [hkind] at hsimple
    cases hsimple
  | openLine | openBlock | closeHole =>
    exact h.append (by simp [isMark, TokenKind.isLead, Token.atSpan]) hline

theorem AboveCursor.stringMove (h : AboveCursor acc lx.cursor) (hmove : StringMove lx ts next) :
    AboveCursor (acc ++ ts) next.cursor := by
  refine h.append ?_ hmove.reaches.line_le
  intro t ht
  cases hmove with
  | hole htexts =>
    rcases List.mem_append.mp ht with ht | ht
    · exact not_mark_of_areTexts htexts t ht
    · rw [List.mem_singleton.mp ht]
      rfl
  | close htexts _ _ _ hkind =>
    rcases List.mem_append.mp ht with ht | ht
    · exact not_mark_of_areTexts htexts t ht
    · simp [isMark, TokenKind.isLead, List.mem_singleton.mp ht, hkind]
  | lineBreak htexts => exact not_mark_of_areTexts htexts t ht

theorem AboveCursor.move (h : AboveCursor acc lx.cursor) (hmove : Move lx ts next) :
    AboveCursor (acc ++ ts) next.cursor := by
  cases hmove with
  | string _ hmove => exact h.stringMove hmove
  | inside _ hmove => exact h.codeMove hmove
  | line _ _ hmargin hmove =>
    rw [← List.append_assoc]
    refine (h.append (fun t ht => ?_) hmargin.reaches.line_le).codeMove hmove
    rcases hmargin.kinds t ht with hkind | hkind <;> simp [isMark, TokenKind.isLead, hkind]

/-- The tokens of a text are in the order of their lines, up to a fault if there is one. -/
theorem inLineOrder_tokens (lx : Lexer) : InLineOrder lx.tokens.items := by
  refine invariant_of_tokens (P := fun acc lx => AboveCursor acc lx.cursor)
    (Q := fun listing => InLineOrder listing.items) ?_ ?_ ?_
    ⟨List.Pairwise.nil, List.forall_mem_nil _, List.forall_mem_nil _⟩
  · intro acc lx ts next hacc hstep
    obtain ⟨last, hmove, rfl⟩ := step_more hstep
    have hmoved : AboveCursor (acc ++ ts) last.cursor := hacc.move hmove
    exact hmoved
  · intro acc lx ts hacc hstep
    obtain ⟨-, c, hending, rfl⟩ := step_done hstep
    have hline := hending.reaches.line_le
    have hends : ∀ t ∈ lx.indents.dropLast.map (fun _ => Token.atSpan .dedent "" c.point)
        ++ [.atSpan .sourceEnd "" c.point], isMark t = false := by
      intro t ht
      rcases List.mem_append.mp ht with ht | ht
      · obtain ⟨_, -, rfl⟩ := List.mem_map.mp ht
        rfl
      · rw [List.mem_singleton.mp ht]
        rfl
    rw [List.append_assoc, ← List.append_assoc]
    refine inLineOrder_append_of_not_mark ?_ hends
    -- The end of the source ends the last line, if that is still open.
    split
    · refine hacc.inLineOrder_concat ?_
      change (lx.cursor.line : Int) ≤ (c.line : Int)
      omega
    · simpa using hacc.inOrder
  · intro acc lx ts e hacc hstep
    refine inLineOrder_append_of_not_mark hacc.inOrder fun t ht => ?_
    rcases (step_fail hstep t ht).2 with hkind | hkind | hkind <;>
      simp [isMark, TokenKind.isLead, hkind]

end Lexer

/-- Tokens as the lexer gives them: well made and in the order of their lines. -/
structure Scanned (ts : List Token) : Prop where
  made : ∀ t ∈ ts, t.WellMade
  inOrder : InLineOrder ts

theorem Scanned.part {ts us : List Token} (h : Scanned us) (before after : List Token)
    (hus : us = before ++ ts ++ after) : Scanned ts := by
  subst hus
  have hsub : ts.Sublist (before ++ ts ++ after) :=
    (List.sublist_append_right before ts).trans (List.sublist_append_left _ after)
  exact ⟨fun t ht => h.made t (hsub.subset ht), List.Pairwise.sublist hsub h.inOrder⟩

theorem scanned_tokensOf (text : String) : Scanned (tokensOf text).items :=
  ⟨Lexer.wellMade_of_mem_tokens _, Lexer.inLineOrder_tokens _⟩

end DialogScript
