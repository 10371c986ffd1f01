import DialogScript.Proofs.Lexing.Locations
import DialogScript.Proofs.Lexing.Comments

/-!
# The cursor is a position in the text

Whatever operations are asked of a cursor, and whether they succeed or fail, its line and column
say where it stands in the lines of the text, and what has been read is the text before that
place, with its line breaks written as line feeds and without its comments
(`Cursor.positioned_performAll`).

Every operation reads characters one after the other and does nothing else to the place of the
cursor (`Operation.gives`), so the invariant is one of reading a single character: a character of
the line, a line break, or a comment with the break that ends it (`Gives.standsAfter`).
-/

namespace DialogScript

namespace Text

/-- A text with the lines between its line breaks. A carriage return and a following line feed
are one break. -/
inductive Splits : List Char → List (List Char) → Prop
  | last {line : List Char} (hline : ∀ ch ∈ line, isBreak ch = false) : Splits line [line]
  | pair {line rest : List Char} {more : List (List Char)} (hline : ∀ ch ∈ line, isBreak ch = false)
      (hrest : Splits rest more) : Splits (line ++ '\r' :: '\n' :: rest) (line :: more)
  | single {line rest : List Char} {more : List (List Char)} {ch : Char}
      (hline : ∀ ch ∈ line, isBreak ch = false) (hbreak : isBreak ch = true)
      (hpair : ∀ left, ch :: rest ≠ '\r' :: '\n' :: left) (hrest : Splits rest more) :
      Splits (line ++ ch :: rest) (line :: more)

/-- A character that ends no line is put in front of the first line. -/
theorem Splits.cons {ch : Char} {cs line : List Char} {more : List (List Char)}
    (h : Splits cs (line :: more)) (hch : isBreak ch = false) :
    Splits (ch :: cs) ((ch :: line) :: more) := by
  cases h with
  | last hline => exact .last (List.forall_mem_cons.mpr ⟨hch, hline⟩)
  | pair hline hrest => exact .pair (List.forall_mem_cons.mpr ⟨hch, hline⟩) hrest
  | single hline hbreak hpair hrest =>
    exact .single (List.forall_mem_cons.mpr ⟨hch, hline⟩) hbreak hpair hrest

/-- The lines of a text are what stands between its line breaks. -/
theorem splits_lines (cs : List Char) : Splits cs (lines cs) := by
  unfold lines
  fun_induction normalizeBreaks cs with
  | case1 => exact .last (List.forall_mem_nil _)
  | case2 rest ih => exact .pair (List.forall_mem_nil _) ih
  | case3 ch rest hpair ih =>
    by_cases hbreak : isBreak ch = true
    · rw [if_pos hbreak]
      refine .single (List.forall_mem_nil _) hbreak (fun left heq => ?_) ih
      obtain ⟨rfl, rfl⟩ := List.cons.inj heq
      exact hpair left rfl rfl
    · rw [if_neg hbreak]
      have hch : ch ≠ '\n' := by
        rintro rfl
        exact hbreak (by decide)
      obtain ⟨line, more, hsplit⟩ := splitBreaks_eq_cons (normalizeBreaks rest)
      rw [hsplit] at ih
      rw [splitBreaks_of_ne hch hsplit]
      exact ih.cons (by simpa using hbreak)

/-- The end of a line is a line break, perhaps with a comment before it. -/
theorem bare_lineEnd {line : List Char} (h : line = [] ∨ ∃ comment, line = '#' :: comment)
    (hline : '\n' ∉ line) (tail : List Char) :
    bare false (line ++ '\n' :: tail) = '\n' :: bare false tail := by
  rcases h with rfl | ⟨comment, rfl⟩
  · rfl
  · rw [List.cons_append, bare, if_pos (by rfl), bare_true, List.dropWhile_append_of_pos]
    · rfl
    · intro ch hch
      have : ch ≠ '\n' := by
        rintro rfl
        exact hline (List.mem_cons_of_mem _ hch)
      simpa using this
    · decide

/-- The text before a place in its lines, with the line breaks written as line feeds. -/
def upTo (ls : List (List Char)) (line column : Nat) : List Char :=
  (ls.take (line - 1)).flatMap (· ++ ['\n']) ++ (ls[line - 1]?.getD []).take (column - 1)

end Text

open Text

namespace Cursor

variable {c d e : Cursor} {cs ds source part : List Char}

/-- Reading character after character, perhaps fixing the indentation style on the way, gives some
characters. -/
inductive Gives : Cursor → List Char → Cursor → Prop
  | refl (c : Cursor) : Gives c [] c
  | read {c d e : Cursor} {ch : Char} {cs : List Char} (h : c.read? = some (ch, d))
      (hrest : Gives d cs e) : Gives c (ch :: cs) e
  | styled {c e : Cursor} {ch : Char} {cs : List Char} (hrest : Gives (c.withStyle ch) cs e) :
      Gives c cs e

/-! ### Operations -/

/-- What can be asked of a cursor. -/
inductive Operation where
  | read
  | expect (wanted : Option Char)
  | digit
  | nameChar
  | blanks
  | skip (wanted : Option Char) (limit : Option Nat)
  | indent (limit : Option Nat)
  deriving DecidableEq

/-- The cursor after an operation, which can have failed. -/
def Operation.perform (c : Cursor) : Operation → Cursor
  | .read => (c.read.toOption.map (·.2)).getD c
  | .expect wanted => (c.expect wanted).toOption.getD c
  | .digit => c.readDigit.2
  | .nameChar => c.readNameChar.2
  | .blanks => c.skipBlanks
  | .skip wanted limit => ((c.skip wanted limit).toOption.map (·.2)).getD c
  | .indent limit => (c.indent limit).2

/-- The cursor after some operations. -/
def performAll (c : Cursor) (ops : List Operation) : Cursor := ops.foldl Operation.perform c

theorem Gives.trans (h : c.Gives cs d) (h' : d.Gives ds e) : c.Gives (cs ++ ds) e := by
  induction h with
  | refl => exact h'
  | read hread _ ih => exact .read hread (ih h')
  | styled _ ih => exact .styled (ih h')

theorem Gives.of_read? {ch : Char} (h : c.read? = some (ch, d)) : c.Gives [ch] d :=
  .read h (.refl d)

private theorem gives_read {ch : Char} (h : c.read = .ok (ch, d)) : c.Gives [ch] d := by
  unfold Cursor.read at h
  split at h
  · rename_i hread
    obtain rfl := Except.ok.inj h
    exact .of_read? hread
  · cases h

private theorem gives_readIf (p : Char → Bool) (c : Cursor) : ∃ cs, c.Gives cs (c.readIf p).2 := by
  unfold readIf
  split
  · split
    · rename_i hread
      exact ⟨_, .of_read? hread⟩
    · exact ⟨[], .refl c⟩
  · exact ⟨[], .refl c⟩

private theorem gives_forward {run rest : List Char} (hrest : c.rest = run ++ rest)
    (hrun : ∀ ch ∈ run, ch ≠ '\n' ∧ ch ≠ '#') : c.Gives run (c.forward run.length rest) := by
  induction run generalizing c with
  | nil =>
    rw [List.nil_append] at hrest
    rw [← hrest]
    exact .refl c
  | cons ch run ih =>
    obtain ⟨⟨hbreak, hcomment⟩, hrun⟩ := List.forall_mem_cons.mp hrun
    have hread : c.read? = some (ch, c.forward 1 (run ++ rest)) := by
      simp [Cursor.read?, hrest, hbreak, hcomment]
    have hgives := ih (c := c.forward 1 (run ++ rest)) rfl hrun
    have hforward : (c.forward 1 (run ++ rest)).forward run.length rest
        = c.forward (ch :: run).length rest := by
      simp only [forward, List.length_cons]
      rw [Nat.add_assoc, Nat.add_comm 1]
    exact .read hread (hforward ▸ hgives)

private theorem gives_skipBlanks (c : Cursor) : ∃ cs, c.Gives cs c.skipBlanks := by
  refine ⟨_, gives_forward (List.takeWhile_append_dropWhile).symm fun ch hch => ?_⟩
  have hblank := List.all_eq_true.mp List.all_takeWhile _ hch
  constructor <;> rintro rfl <;> exact absurd hblank (by decide)

private theorem gives_skipAll (ch : Char) (limit : Option Nat) (c : Cursor) :
    ∃ cs, c.Gives cs (c.skipAll ch limit).2 := by
  fun_induction skipAll ch limit c with
  | case1 | case2 => exact ⟨[], .refl _⟩
  | case3 limit c _ x next hread _ count last hlast ih =>
    rw [hlast] at ih
    obtain ⟨cs, hcs⟩ := ih
    exact ⟨x :: cs, .read hread hcs⟩

private theorem gives_readIndent (limit : Option Nat) (c : Cursor) :
    ∃ cs, c.Gives cs (c.readIndent limit).2 := by
  fun_induction readIndent limit c with
  | case1 | case2 | case4 | case7 | case8 => exact ⟨[], .refl _⟩
  | case3 _ x _ hread _ _ _ ih | case6 _ x _ hread _ _ _ _ _ _ _ ih =>
    obtain ⟨cs, hcs⟩ := ih
    exact ⟨x :: cs, .read hread hcs⟩
  | case5 _ x _ hread _ _ _ _ _ _ _ ih =>
    obtain ⟨cs, hcs⟩ := ih
    exact ⟨x :: cs, .read hread (.styled hcs)⟩

/-- Every operation reads some characters one after the other, also if it fails. -/
theorem Operation.gives (op : Operation) (c : Cursor) : ∃ cs, c.Gives cs (op.perform c) := by
  cases op with
  | read =>
    rw [perform]
    cases hread : c.read with
    | error => exact ⟨[], .refl c⟩
    | ok result => exact ⟨_, gives_read hread⟩
  | expect wanted =>
    rw [perform, Cursor.expect]
    split
    · cases hread : c.read with
      | error => exact ⟨[], .refl c⟩
      | ok result => exact ⟨_, gives_read hread⟩
    · exact ⟨[], .refl c⟩
  | digit => exact gives_readIf _ c
  | nameChar => exact gives_readIf _ c
  | blanks => exact gives_skipBlanks c
  | skip wanted limit =>
    cases wanted with
    | some ch => exact gives_skipAll ch limit c
    | none =>
      rw [perform, Cursor.skip]
      split <;> exact ⟨[], .refl c⟩
  | indent limit =>
    rw [perform, Cursor.indent]
    split
    · obtain ⟨cs, hcs⟩ := gives_readIndent limit c
      split <;> rename_i hread <;> rw [hread] at hcs <;> exact ⟨cs, hcs⟩
    · exact ⟨[], .refl c⟩

private theorem exists_gives_performAll (ops : List Operation) (c : Cursor) :
    ∃ cs, c.Gives cs (c.performAll ops) := by
  induction ops generalizing c with
  | nil => exact ⟨[], .refl c⟩
  | cons op ops ih =>
    obtain ⟨cs, hcs⟩ := op.gives c
    obtain ⟨ds, hds⟩ := ih (op.perform c)
    exact ⟨cs ++ ds, hcs.trans hds⟩

/-! ### Positions -/

/-- The text before a cursor that stands on a line, after a part of it. -/
def passed (source part : List Char) (c : Cursor) : List Char :=
  ((splitBreaks source).take (c.line - 1)).flatMap (· ++ ['\n']) ++ part

/-- The cursor stands after a part of its line, and the text before it is `taken` when its comments
are taken out; what comes next is not part of a comment. -/
structure HasTaken (source taken part : List Char) (c : Cursor) : Prop where
  stands : c.StandsAfter source part
  bare : ∀ tail, Text.bare false (c.passed source part ++ tail) = taken ++ Text.bare false tail

private theorem hasTaken_ofText (text : String) :
    (ofText text).HasTaken (normalizeBreaks text.toList) [] [] :=
  ⟨standsAfter_ofText text, fun _ => rfl⟩

private theorem passed_nextLine {line rest : List Char} {more : List (List Char)}
    (h : c.StandsAfter source part) (hsplit : splitBreaks c.rest = line :: more) :
    (c.nextLine rest).passed source [] = c.passed source part ++ line ++ ['\n'] := by
  obtain ⟨line', more', hsplit', hsource⟩ := h.onLine
  obtain ⟨rfl, rfl⟩ := List.cons.inj (hsplit'.symm.trans hsplit)
  have hpos := h.line_pos
  have hnumber : c.line + 1 - 1 = c.line - 1 + 1 := by omega
  have hget : (splitBreaks source)[c.line - 1]? = some (part ++ line') := by
    have := congrArg (·[0]?) hsource
    simpa [List.getElem?_drop] using this
  simp only [passed, nextLine, hnumber, List.take_add_one, hget, List.flatMap_append]
  simp

private theorem eq_break_of_read? {ch : Char} (hend : c.atLineEnd = true)
    (hread : c.read? = some (ch, d)) : ch = '\n' := by
  unfold Cursor.read? at hread
  unfold atLineEnd at hend
  split at hread
  · cases hread
  · rename_i x rest hrest
    split at hread
    · exact (Prod.mk.inj (Option.some.inj hread)).1.symm
    · split at hread
      · exact (Prod.mk.inj (Option.some.inj hread)).1.symm
      · rename_i hbreak hcomment
        simp [hrest, hbreak, hcomment] at hend

/-- Reading one character keeps the invariant, as long as text is left. -/
theorem HasTaken.read? {taken : List Char} {ch : Char} (h : c.HasTaken source taken part)
    (hread : c.read? = some (ch, d)) :
    d.rest = [] ∨ ∃ part', d.HasTaken source (taken ++ [ch]) part' := by
  rcases read?_cases hread with ⟨hend, hline, -⟩ | ⟨hend, hpasses⟩
  · rcases h.stands.read? hend hread with hpast | hnext
    · exact .inl hpast.rest
    obtain rfl := eq_break_of_read? hend hread
    obtain ⟨line, more, hsplit⟩ := splitBreaks_eq_cons c.rest
    have hnextLine : (c.nextLine d.rest).passed source [] = _ := passed_nextLine h.stands hsplit
    have hpassed : d.passed source [] = c.passed source part ++ line ++ ['\n'] := by
      rw [← hnextLine, passed, passed, hline]
      rfl
    refine .inr ⟨[], hnext, fun tail => ?_⟩
    rw [hpassed, List.append_assoc, List.append_assoc, h.bare, List.append_assoc,
      List.singleton_append, bare_lineEnd (line_of_atLineEnd hend hsplit)
        (exists_tail_of_splitBreaks hsplit).1]
    rfl
  · refine .inr ⟨part ++ [ch], h.stands.passes hpasses, fun tail => ?_⟩
    have hpassed : d.passed source (part ++ [ch]) = c.passed source part ++ [ch] := by
      rw [passed, passed, hpasses.line, List.append_assoc]
    have hch : ch ≠ '\n' ∧ ch ≠ '#' := by
      rw [atLineEnd, hpasses.rest] at hend
      simpa using hend
    rw [hpassed, List.append_assoc, h.bare, List.singleton_append, bare_of_ne hch.1 hch.2,
      List.append_assoc, List.singleton_append]

theorem HasTaken.withStyle {taken : List Char} {ch : Char} (h : c.HasTaken source taken part) :
    (c.withStyle ch).HasTaken source taken part :=
  ⟨h.stands.withStyle, h.bare⟩

/-- At the end of the source nothing more is given. -/
theorem Gives.rest_eq_nil (h : c.Gives cs d) (hrest : c.rest = []) : d.rest = [] := by
  induction h with
  | refl => exact hrest
  | read hread => simp [Cursor.read?, hrest] at hread
  | styled _ ih => exact ih hrest

/-- What has been read grows by what reading gives. -/
theorem Gives.hasTaken {taken : List Char} (h : c.Gives cs d) (hc : c.HasTaken source taken part) :
    d.rest = [] ∨ ∃ part', d.HasTaken source (taken ++ cs) part' := by
  induction h generalizing taken part with
  | refl => exact .inr ⟨part, by rwa [List.append_nil]⟩
  | read hread hrest ih =>
    rcases hc.read? hread with hnil | ⟨part', hnext⟩
    · exact .inl (hrest.rest_eq_nil hnil)
    · have := ih hnext
      rwa [List.append_assoc, List.singleton_append] at this
  | styled _ ih => exact ih hc.withStyle

/-- Where text is left, the cursor stands on a line of the text, the next character is the one in
its column or the break that ends the line, and what has been read is the text before it without
comments. -/
structure Positioned (text : String) (taken : List Char) (c : Cursor) : Prop where
  line_pos : 1 ≤ c.line
  line_le : c.line ≤ (lines text.toList).length
  column_pos : 1 ≤ c.column
  onLine : ∃ line, (lines text.toList)[c.line - 1]? = some line ∧ c.column - 1 ≤ line.length ∧
    c.peek = (line ++ ['\n'])[c.column - 1]?
  taken_eq : taken = Text.bare false (upTo (lines text.toList) c.line c.column)

private theorem HasTaken.positioned {text : String} {taken : List Char}
    (h : c.HasTaken (normalizeBreaks text.toList) taken part) (hcan : c.canRead = true) :
    c.Positioned text taken := by
  obtain ⟨line, more, hsplit, -⟩ := h.stands.onLine
  have hcolumn := h.stands.column
  have hget := h.stands.getElem?_lines hsplit
  refine ⟨h.stands.line_pos, h.stands.line_le, by omega, ⟨part ++ line, hget, ?_, ?_⟩, ?_⟩
  · simp [hcolumn]
  · rw [hcolumn, Nat.add_sub_cancel, List.append_assoc, List.getElem?_append_right (Nat.le_refl _),
      Nat.sub_self]
    rcases (exists_tail_of_splitBreaks hsplit).2 with ⟨hrest, -⟩ | ⟨after, hrest, -⟩
    · have hne : line ≠ [] := by
        rintro rfl
        simp [canRead, hrest] at hcan
      rw [peek, hrest, List.head?_eq_getElem?,
        List.getElem?_append_left (List.length_pos_iff.mpr hne)]
    · rw [peek, hrest]
      cases line <;> rfl
  · have hbare := h.bare []
    simp only [List.append_nil, Text.bare] at hbare
    rw [← hbare, upTo, passed, hget, hcolumn]
    simp [lines]

/-- The line and the column of a cursor are its position in the text, whatever operations have
been asked of it: they have read some characters, and these are the text before the position. -/
theorem positioned_performAll (text : String) (ops : List Operation) :
    Splits text.toList (lines text.toList) ∧
      ∃ taken, (ofText text).Gives taken ((ofText text).performAll ops) ∧
        ∀ cs, (ofText text).Gives cs ((ofText text).performAll ops) →
          ((ofText text).performAll ops).canRead = true →
            ((ofText text).performAll ops).Positioned text cs := by
  obtain ⟨taken, htaken⟩ := exists_gives_performAll ops (ofText text)
  refine ⟨splits_lines _, taken, htaken, fun cs hcs hcan => ?_⟩
  rcases hcs.hasTaken (hasTaken_ofText text) with hnil | ⟨part, h⟩
  · simp [canRead, hnil] at hcan
  · exact h.positioned hcan

/-- A name, the blanks after it, a comment with its line break, and the margin of the next line. -/
theorem positioned_performAll_comment :
    ((ofText "x #c\r\n\ty").performAll [.nameChar, .blanks, .expect (some '#'), .blanks]).canRead
        = true ∧
      ((ofText "x #c\r\n\ty").performAll
        [.nameChar, .blanks, .expect (some '#'), .blanks]).Positioned "x #c\r\n\ty"
          ['x', ' ', '\n', '\t'] := by
  obtain ⟨-, -, -, h⟩ := positioned_performAll "x #c\r\n\ty"
    [.nameChar, .blanks, .expect (some '#'), .blanks]
  exact ⟨by decide, h _ (.read rfl (.read rfl (.read rfl (.read rfl (.refl _))))) (by decide)⟩

end Cursor

end DialogScript
