import DialogScript.Proofs.Lexing.Spans

/-!
# Lines that exist

The cursor counts lines while it reads, and a diagnostic is shown by splitting the text into lines
anew. The two counts agree: the cursor stands on a line of the source, except past a comment that
ends the source, where it stands on the line that would come next (`Cursor.Located`).
-/

namespace DialogScript

open Text

namespace Cursor

variable {source part cs : List Char} {c d : Cursor}

/-- The cursor has read a comment that ends the source, and with it a line break that is not
there. -/
structure PastComment (source : List Char) (c : Cursor) : Prop where
  rest : c.rest = []
  line : c.line = (splitBreaks source).length + 1
  column : c.column = 1
  comment : ∃ last, (splitBreaks source).getLast? = some last ∧ '#' ∈ last

/-- The cursor stands on a line of the source or past a comment at its end. -/
def Located (source : List Char) (c : Cursor) : Prop :=
  c.PastComment source ∨ ∃ part, c.StandsAfter source part

/-- Of the last line nothing but the rest of the text is left. -/
theorem StandsAfter.getLast?_lines {line : List Char} {more : List (List Char)}
    (h : StandsAfter source part c) (hsplit : splitBreaks c.rest = line :: more) :
    c.line + more.length = (splitBreaks source).length ∧
      (more = [] → (splitBreaks source).getLast? = some (part ++ line)) := by
  obtain ⟨line', more', hsplit', hsource⟩ := h.onLine
  obtain ⟨rfl, rfl⟩ := List.cons.inj (hsplit.symm.trans hsplit')
  have hpos := h.line_pos
  have hlength := congrArg List.length hsource
  rw [List.length_drop, List.length_cons] at hlength
  refine ⟨by omega, ?_⟩
  rintro rfl
  have hlast := List.getLast?_drop (i := c.line - 1) (l := splitBreaks source)
  rw [hsource, if_neg (by simp only [List.length_nil] at hlength; omega)] at hlast
  exact hlast.symm

theorem StandsAfter.line_le (h : StandsAfter source part c) :
    c.line ≤ (splitBreaks source).length := by
  obtain ⟨line, more, hsplit, -⟩ := h.onLine
  exact Nat.le.intro (h.getLast?_lines hsplit).1

theorem StandsAfter.withStyle {ch : Char} (h : StandsAfter source part c) :
    StandsAfter source part (c.withStyle ch) :=
  ⟨h.onLine, h.column, h.line_pos⟩

/-- A line end that is no line break is a comment, and one of its line. -/
theorem mem_of_atLineEnd {line : List Char} (hend : c.atLineEnd = true) (hne : c.rest ≠ [])
    (hsplit : splitBreaks c.rest = [line]) : '#' ∈ line := by
  rcases line_of_atLineEnd hend hsplit with rfl | ⟨comment, rfl⟩
  · obtain ⟨x, rest, hrest⟩ := List.exists_cons_of_ne_nil hne
    obtain ⟨line, more, hsplit'⟩ := splitBreaks_eq_cons rest
    rw [hrest] at hsplit
    by_cases hx : x = '\n'
    · rw [hx, splitBreaks] at hsplit
      exact absurd (List.cons.inj hsplit).2 (splitBreaks_ne_nil rest)
    · have hcons := splitBreaks_append (show '\n' ∉ [x] by simpa using Ne.symm hx) hsplit'
      rw [List.singleton_append, hsplit] at hcons
      cases (List.cons.inj hcons).1
  · exact List.mem_cons_self

/-- Past a line break or a comment the cursor is still located. -/
theorem StandsAfter.located_of_read? {ch : Char} (h : StandsAfter source part c)
    (hend : c.atLineEnd = true) (hread : c.read? = some (ch, d)) : Located source d := by
  rcases h.read? hend hread with hpast | hnext
  · obtain ⟨hline, hcolumn⟩ := nextLine_of_read? hend hread
    obtain ⟨line, more, hsplit, -⟩ := h.onLine
    obtain ⟨hcount, hlast⟩ := h.getLast?_lines hsplit
    have hpastLine := hpast.line
    obtain rfl : more = [] := List.length_eq_zero_iff.mp (by omega)
    have hne : c.rest ≠ [] := by
      intro hnil
      simp [Cursor.read?, hnil] at hread
    refine .inl ⟨hpast.rest, by rw [hline, ← hcount, List.length_nil, Nat.add_zero], hcolumn,
      part ++ line, hlast rfl, List.mem_append_right _ (mem_of_atLineEnd hend hne hsplit)⟩
  · exact .inr ⟨[], hnext⟩

theorem located_ofText (text : String) : Located (normalizeBreaks text.toList) (ofText text) :=
  .inr ⟨[], standsAfter_ofText text⟩

theorem Located.reaches (h : Located source c) (hreach : c.Reaches d) : Located source d := by
  induction hreach with
  | refl => exact h
  | passes hpasses _ ih =>
    refine ih ?_
    rcases h with hpast | ⟨part, hstands⟩
    · have hrest := hpasses.rest
      rw [hpast.rest] at hrest
      obtain ⟨rfl, hnil⟩ := List.append_eq_nil_iff.mp hrest.symm
      exact .inl ⟨hnil, hpasses.line.trans hpast.line, hpasses.column.trans hpast.column,
        hpast.comment⟩
    · exact .inr ⟨_, hstands.passes hpasses⟩
  | lineEnd hend hread _ ih =>
    refine ih ?_
    rcases h with hpast | ⟨part, hstands⟩
    · simp [Cursor.read?, hpast.rest] at hread
    · exact hstands.located_of_read? hend hread
  | styled _ ih =>
    refine ih ?_
    rcases h with hpast | ⟨part, hstands⟩
    · exact .inl ⟨hpast.rest, hpast.line, hpast.column, hpast.comment⟩
    · exact .inr ⟨part, hstands.withStyle⟩

/-- Where text is left, the cursor stands on a line of the source. -/
theorem Located.standsAfter (h : Located source c) (hne : c.rest ≠ []) :
    ∃ part, StandsAfter source part c :=
  h.resolve_left fun hpast => hne hpast.rest

/-- At the end of the source no line is left. -/
theorem Located.length_le_line (h : Located source c) (hrest : c.rest = []) :
    (splitBreaks source).length ≤ c.line := by
  rcases h with hpast | ⟨part, hstands⟩
  · rw [hpast.line]
    exact Nat.le_succ _
  · have hsplit : splitBreaks c.rest = [[]] := by rw [hrest, splitBreaks]
    exact Nat.le_of_eq (hstands.getLast?_lines hsplit).1.symm

end Cursor

end DialogScript
