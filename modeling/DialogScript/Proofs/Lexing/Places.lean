import DialogScript.Proofs.Lexing.Steps

/-!
# Where the cursor stands in the source

The cursor of the lexer keeps a line number and a column, and only the text that is left.
`Cursor.StandsAfter source part c` ties the three to the source: the cursor stands on the line
that its number says, after `part` of it. Every move of the cursor keeps this as long as text is
left, so the indentation that the lexer reads is the run of blanks at the start of a line of the
source (`marginWidth_of_readIndent`).
-/

namespace DialogScript

namespace Text

theorem splitBreaks_append {cs rest line : List Char} {more : List (List Char)}
    (hcs : '\n' ∉ cs) (h : splitBreaks rest = line :: more) :
    splitBreaks (cs ++ rest) = (cs ++ line) :: more := by
  induction cs with
  | nil => exact h
  | cons c cs ih =>
    simp only [List.mem_cons, not_or] at hcs
    have hc : c ≠ '\n' := fun heq => hcs.1 heq.symm
    rw [List.cons_append, splitBreaks, ih hcs.2, List.cons_append]
    exact hc

theorem splitBreaks_eq_cons (cs : List Char) : ∃ line more, splitBreaks cs = line :: more :=
  List.exists_cons_of_ne_nil (splitBreaks_ne_nil cs)

/-- The number of blanks at the start of a line of a text. -/
def marginWidth (text : String) (line : Int) : Nat :=
  ((line? text.toList line).map fun cs => (cs.takeWhile Cursor.isIndentChar).length).getD 0

end Text

open Text

namespace Cursor

variable {source part cs : List Char} {c d : Cursor}

/-- The cursor stands on its line of the source, after `part`. -/
structure StandsAfter (source part : List Char) (c : Cursor) : Prop where
  onLine : ∃ line more, splitBreaks c.rest = line :: more ∧
    (splitBreaks source).drop (c.line - 1) = (part ++ line) :: more
  column : c.column = part.length + 1
  line_pos : 1 ≤ c.line

theorem standsAfter_ofText (text : String) :
    StandsAfter (normalizeBreaks text.toList) [] (ofText text) := by
  obtain ⟨line, more, h⟩ := splitBreaks_eq_cons (normalizeBreaks text.toList)
  exact ⟨⟨line, more, h, h⟩, rfl, Nat.le_refl 1⟩

theorem StandsAfter.passes (h : StandsAfter source part c) (hpasses : c.Passes cs d) :
    StandsAfter source (part ++ cs) d := by
  obtain ⟨line, more, hrest, hsource⟩ := h.onLine
  obtain ⟨line', more', hrest'⟩ := splitBreaks_eq_cons d.rest
  have hsplit := splitBreaks_append hpasses.sameLine hrest'
  rw [← hpasses.rest, hrest] at hsplit
  obtain ⟨rfl, rfl⟩ := List.cons.inj hsplit
  refine ⟨⟨line', more, hrest', ?_⟩, ?_, ?_⟩
  · rw [hpasses.line, hsource, List.append_assoc]
  · rw [hpasses.column, h.column, List.length_append]
    omega
  · rw [hpasses.line]
    exact h.line_pos

theorem StandsAfter.nextLine {line rest : List Char} {more : List (List Char)}
    (h : StandsAfter source part c) (hsplit : splitBreaks c.rest = line :: more)
    (hmore : splitBreaks rest = more) : StandsAfter source [] (c.nextLine rest) := by
  obtain ⟨line', more', hrest, hsource⟩ := h.onLine
  obtain ⟨-, rfl⟩ := List.cons.inj (hrest.symm.trans hsplit)
  obtain ⟨next, after, hnext⟩ := splitBreaks_eq_cons rest
  refine ⟨⟨next, after, hnext, ?_⟩, rfl, Nat.le_add_left 1 c.line⟩
  have hline : c.line + 1 - 1 = c.line - 1 + 1 := by
    have := h.line_pos
    omega
  change (splitBreaks source).drop (c.line + 1 - 1) = _
  rw [hline, ← List.drop_drop, hsource, List.drop_one, List.tail_cons, ← hmore, hnext]
  rfl

/-- No text is left, and the cursor stands past the last line of the source. -/
structure StandsPast (source : List Char) (c : Cursor) : Prop where
  rest : c.rest = []
  line : (splitBreaks source).length < c.line

/-- Past the end of a line the cursor stands at the start of the next one, if there is one. -/
theorem StandsAfter.read? {ch : Char} (h : StandsAfter source part c)
    (hend : c.atLineEnd = true) (hread : c.read? = some (ch, d)) :
    StandsPast source d ∨ StandsAfter source [] d := by
  unfold Cursor.read? at hread
  split at hread
  · cases hread
  rename_i x rest hrest
  split at hread
  · rename_i hbreak
    obtain ⟨-, rfl⟩ := Prod.mk.inj (Option.some.inj hread)
    exact .inr (h.nextLine (by rw [hrest, hbreak, splitBreaks]) rfl)
  split at hread
  · rename_i hcomment
    obtain ⟨-, rfl⟩ := Prod.mk.inj (Option.some.inj hread)
    have htake : '\n' ∉ x :: rest.takeWhile (· != '\n') := by
      intro hmem
      rcases List.mem_cons.mp hmem with heq | hmem
      · rw [hcomment] at heq
        cases heq
      · simpa using List.all_eq_true.mp List.all_takeWhile _ hmem
    have hpieces : c.rest
        = x :: rest.takeWhile (· != '\n') ++ rest.dropWhile (· != '\n') := by
      rw [hrest, List.cons_append, List.takeWhile_append_dropWhile]
    cases hdrop : rest.dropWhile (· != '\n') with
    | nil =>
      -- The comment ends the source, so its line is the last one.
      obtain ⟨line, more, hsplit, hsource⟩ := h.onLine
      have hlast := splitBreaks_append htake (show splitBreaks [] = [] :: [] from rfl)
      rw [hdrop] at hpieces
      rw [← hpieces, hsplit] at hlast
      obtain ⟨-, rfl⟩ := List.cons.inj hlast
      have hlength := congrArg List.length hsource
      rw [List.length_drop] at hlength
      simp only [List.length_cons, List.length_nil] at hlength
      refine .inl ⟨rfl, ?_⟩
      have hpos := h.line_pos
      change (splitBreaks source).length < c.line + 1
      omega
    | cons y more =>
      -- A comment is passed together with the line break after it.
      obtain rfl : y = '\n' := by
        have := List.head?_dropWhile_not (· != '\n') rest
        simpa [hdrop] using this
      have hsplit : splitBreaks c.rest
          = (x :: rest.takeWhile (· != '\n') ++ []) :: splitBreaks more := by
        rw [hpieces, hdrop]
        exact splitBreaks_append htake (by rw [splitBreaks])
      exact .inr (h.nextLine hsplit rfl)
  · rename_i hbreak hcomment
    simp [atLineEnd, hrest, hbreak, hcomment] at hend

/-- The cursor stands somewhere in the source, or no text is left. -/
def Stands (source : List Char) (c : Cursor) : Prop :=
  c.rest = [] ∨ ∃ part, StandsAfter source part c

theorem Stands.reaches (h : Stands source c) (hreach : c.Reaches d) : Stands source d := by
  induction hreach with
  | refl => exact h
  | passes hpasses _ ih =>
    refine ih ?_
    rcases h with hnil | ⟨part, hstands⟩
    · have hrest := hpasses.rest
      rw [hnil] at hrest
      exact .inl (List.append_eq_nil_iff.mp hrest.symm).2
    · exact .inr ⟨_, hstands.passes hpasses⟩
  | lineEnd hend hread _ ih =>
    refine ih ?_
    rcases h with hnil | ⟨part, hstands⟩
    · simp [Cursor.read?, hnil] at hread
    · exact (hstands.read? hend hread).imp StandsPast.rest fun hnext => ⟨[], hnext⟩
  | styled _ ih =>
    refine ih ?_
    rcases h with hnil | ⟨part, hstands⟩
    · exact .inl hnil
    · exact .inr ⟨part, hstands.onLine, hstands.column, hstands.line_pos⟩

/-- The first place of a line that is neither blank nor part of a comment. -/
structure StartsLine (source : List Char) (width : Nat) (c : Cursor) : Prop where
  stands : ∃ part, StandsAfter source part c ∧ part.length = width ∧
    ∀ b ∈ part, isIndentChar b = true
  starts : ∃ ch rest, c.rest = ch :: rest ∧ isIndentChar ch = false ∧ c.atLineEnd = false

theorem StandsAfter.readBlank {x ch : Char} (h : StandsAfter source part c)
    (hpart : ∀ b ∈ part, isIndentChar b = true) (hread : c.read? = some (x, d))
    (hend : ¬c.atLineEnd = true) (hpeek : c.peek = some ch) (hblank : isIndentChar ch = true) :
    StandsAfter source (part ++ [ch]) d ∧ ∀ b ∈ part ++ [ch], isIndentChar b = true := by
  have hpasses := passes_of_read? hend hread
  obtain rfl : x = ch := by simpa [peek, hpasses.rest] using hpeek
  refine ⟨h.passes hpasses, fun b hb => ?_⟩
  rcases List.mem_append.mp hb with hb | hb
  · exact hpart b hb
  · rwa [List.mem_singleton.mp hb]

/-- Reading indentation comes to the first place of a line, if any text is left. -/
theorem startsLine_of_readIndent {level : Nat} (h : StandsAfter source part c)
    (hpart : ∀ b ∈ part, isIndentChar b = true) (hread : c.readIndent none = (.ok level, d))
    (hcan : d.canRead = true) : StartsLine source level d := by
  fun_induction readIndent none c generalizing part with
  | case1 c hnone =>
    obtain ⟨-, rfl⟩ := Prod.mk.inj hread
    simp [canRead, rest_eq_nil_of_read? hnone] at hcan
  | case2 _ _ _ _ _ hlimit => cases hlimit
  | case3 c x next hstep _ _ hend ih =>
    -- A line without text is passed, and its blanks count for nothing.
    rcases h.read? hend hstep with ⟨hnil, -⟩ | hnext
    · rw [readIndent] at hread
      split at hread
      · obtain ⟨-, rfl⟩ := Prod.mk.inj hread
        simp [canRead, hnil] at hcan
      · rename_i hstep'
        simp [Cursor.read?, hnil] at hstep'
    · exact ih hnext (List.forall_mem_nil _) hread
  | case4 c _ _ _ _ _ hend hpeek =>
    have hnil : c.rest = [] := by simpa [peek] using hpeek
    simp [atLineEnd, hnil] at hend
  | case5 _ _ _ hstep _ _ hend _ hpeek hblank _ ih =>
    obtain ⟨hnext, hnextPart⟩ := h.readBlank hpart hstep hend hpeek hblank
    exact ih ⟨hnext.onLine, hnext.column, hnext.line_pos⟩ hnextPart hread
  | case6 _ _ _ hstep _ _ hend _ _ hpeek hblank ih =>
    obtain ⟨hnext, hnextPart⟩ := h.readBlank hpart hstep hend hpeek hblank
    exact ih hnext hnextPart hread
  | case7 => cases (Prod.mk.inj hread).1
  | case8 c _ _ _ _ _ hend ch hpeek hblank =>
    obtain ⟨hlevel, rfl⟩ := Prod.mk.inj hread
    obtain ⟨rest, hrest⟩ : ∃ rest, c.rest = ch :: rest := by
      simpa [peek, List.head?_eq_some_iff] using hpeek
    refine ⟨⟨part, h, ?_, hpart⟩, ch, rest, hrest, by simpa using hblank, by simpa using hend⟩
    rw [← Except.ok.inj hlevel, Cursor.level, if_pos hcan, h.column, Nat.add_sub_cancel]

/-- The line of the source that the cursor stands on. -/
theorem StandsAfter.getElem?_lines {text : String} {line : List Char} {more : List (List Char)}
    (h : StandsAfter (normalizeBreaks text.toList) part c)
    (hsplit : splitBreaks c.rest = line :: more) :
    (lines text.toList)[c.line - 1]? = some (part ++ line) := by
  obtain ⟨line', more', hrest, hsource⟩ := h.onLine
  obtain ⟨rfl, rfl⟩ := List.cons.inj (hrest.symm.trans hsplit)
  have hget := congrArg (·[0]?) hsource
  simp only [List.getElem?_drop, Nat.add_zero] at hget
  exact hget

theorem StandsAfter.line?_eq {text : String} {line : List Char} {more : List (List Char)}
    (h : StandsAfter (normalizeBreaks text.toList) part c)
    (hsplit : splitBreaks c.rest = line :: more) :
    line? text.toList c.line = some (part ++ line) := by
  have hpos := h.line_pos
  rw [line?, if_pos (by omega), Int.toNat_natCast, h.getElem?_lines hsplit]

/-- The width that the lexer reads is the width of the line's margin in the source. -/
theorem StartsLine.marginWidth_eq {text : String} {width : Nat}
    (h : StartsLine (normalizeBreaks text.toList) width c) : marginWidth text c.line = width := by
  obtain ⟨part, hstands, rfl, hpart⟩ := h.stands
  obtain ⟨ch, rest, hrest, hblank, hend⟩ := h.starts
  obtain ⟨line, more, hsplit, -⟩ := hstands.onLine
  have hbreak : ch ≠ '\n' := by
    rintro rfl
    simp [atLineEnd, hrest] at hend
  -- The rest of the line begins with the character that is no blank.
  obtain ⟨line', rfl⟩ : ∃ line', line = ch :: line' := by
    obtain ⟨line', more', hsplit'⟩ := splitBreaks_eq_cons rest
    have hmem : '\n' ∉ [ch] := by simpa using hbreak.symm
    have hcons := splitBreaks_append hmem hsplit'
    rw [List.singleton_append, ← hrest, hsplit] at hcons
    exact ⟨line', (List.cons.inj hcons).1⟩
  rw [marginWidth, hstands.line?_eq hsplit, Option.map_some, Option.getD_some,
    List.takeWhile_append_of_pos hpart, List.takeWhile_cons_of_neg (by simp [hblank]),
    List.append_nil]

/-- A cursor at the first place of a line has no blanks to skip. -/
theorem StartsLine.skipBlanks_eq {width : Nat} (h : StartsLine source width c) :
    c.skipBlanks = c := by
  obtain ⟨ch, rest, hrest, hblank, -⟩ := h.starts
  exact skipBlanks_eq_self hrest hblank

end Cursor

end DialogScript
