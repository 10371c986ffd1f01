import DialogScript.Proofs.Lexing.Locations

/-!
# One indentation style

The first character that indents a line is the style of the whole text, and the lexer holds every
later indentation against it. It does so only where it reads indentation, so the invariant says
which lines have been through that: every line up to the cursor, except the line that the cursor
is at the start of, begins inside a string or is led by the style alone (`Lexer.Uniform`).
-/

namespace DialogScript

open Text

/-- A line begins inside a string: the tokens above it leave one open. -/
def BeginsInString (tokens : List Token) (line : Nat) : Prop :=
  (nesting [] (tokens.filter fun t => t.line < line)).bind List.head? = some .string

instance (tokens : List Token) (line : Nat) : Decidable (BeginsInString tokens line) :=
  inferInstanceAs (Decidable (_ = _))

private theorem beginsInString_iff {tokens : List Token} {line : Nat} : BeginsInString tokens line ↔
    ∃ bs, nesting [] (tokens.filter fun t => t.line < line) = some (.string :: bs) := by
  simp only [BeginsInString, Option.bind_eq_some_iff, List.head?_eq_some_iff]
  constructor
  · rintro ⟨_, h, bs, rfl⟩
    exact ⟨bs, h⟩
  · rintro ⟨bs, h⟩
    exact ⟨_, h, bs, rfl⟩

/-- A character is one of the blanks that lead a line which begins outside of strings. -/
def LeadsLine (text : String) (tokens : List Token) (ch : Char) : Prop :=
  ∃ n cs, (lines text.toList)[n]? = some cs ∧ ¬BeginsInString tokens (n + 1) ∧
    ch ∈ cs.takeWhile Cursor.isIndentChar

/-- Texts that are left out change no nesting. -/
theorem nesting_filter {p : Token → Bool} {ts : List Token}
    (h : ∀ t ∈ ts, p t = false → t.kind = .text) (bs : List Bracket) :
    nesting bs (ts.filter p) = nesting bs ts := by
  induction ts generalizing bs with
  | nil => rfl
  | cons t ts ih =>
    have hrest := ih fun u hu => h u (List.mem_cons_of_mem t hu)
    by_cases hp : p t = true
    · rw [List.filter_cons_of_pos hp, nesting_cons, nesting_cons]
      simp only [hrest]
    · rw [List.filter_cons_of_neg hp, hrest, nesting_cons,
        h t List.mem_cons_self (by simpa using hp)]
      rfl

/-- Tokens that are not above a line do not change where it begins. -/
theorem BeginsInString.append {acc ts : List Token} {n : Nat} (h : BeginsInString acc n)
    (hts : ∀ t ∈ ts, t.kind ≠ .text → (n : Int) ≤ t.line) : BeginsInString (acc ++ ts) n := by
  obtain ⟨bs, hbs⟩ := beginsInString_iff.mp h
  refine beginsInString_iff.mpr ⟨bs, ?_⟩
  rw [List.filter_append, nesting_append hbs]
  refine nesting_texts (fun t ht => ?_) _
  obtain ⟨hmem, hline⟩ := List.mem_filter.mp ht
  refine Decidable.of_not_not fun hkind => ?_
  have := hts t hmem hkind
  simp only [decide_eq_true_eq] at hline
  omega

namespace Cursor

variable {source part : List Char} {c d : Cursor} {r : Except SyntaxError Nat}

/-- Reading indentation keeps the style once there is one. -/
theorem style_of_readIndent {limit : Option Nat} {style : Char}
    (h : c.readIndent limit = (r, d)) (hstyle : c.style = some style) : d.style = some style := by
  fun_induction readIndent limit c with
  | case1 | case2 | case4 | case7 | case8 =>
    obtain ⟨-, rfl⟩ := Prod.mk.inj h
    exact hstyle
  | case3 _ _ _ hread _ _ _ ih => exact ih h ((style_of_read? hread).trans hstyle)
  | case5 _ _ _ _ _ _ _ _ _ _ hnone =>
    rw [hnone] at hstyle
    cases hstyle
  | case6 _ _ _ hread _ _ _ _ _ _ _ ih => exact ih h ((style_of_read? hread).trans hstyle)

/-- The blanks of a line that ends where the cursor stands are those before the cursor. -/
theorem StandsAfter.blanks_of_atLineEnd {k : Nat} {cs : List Char} (h : StandsAfter source part c)
    (hpart : ∀ b ∈ part, isIndentChar b = true)
    (hstop : c.rest = [] ∨ ∃ ch rest, c.rest = ch :: rest ∧ isIndentChar ch = false)
    (hline : (splitBreaks source)[k]? = some cs) (hk : k + 1 = c.line) :
    cs.takeWhile isIndentChar = part := by
  obtain ⟨line, more, hsplit, hsource⟩ := h.onLine
  have hget := congrArg (·[0]?) hsource
  simp only [List.getElem?_drop, Nat.add_zero, ← hk, Nat.add_sub_cancel, hline,
    List.getElem?_cons_zero, Option.some.injEq] at hget
  have hempty : line.takeWhile isIndentChar = [] := by
    rcases hstop with hnil | ⟨ch, rest, hrest, hch⟩
    · rw [hnil] at hsplit
      obtain ⟨rfl, -⟩ := List.cons.inj (show [[]] = line :: more from hsplit)
      rfl
    · by_cases hbreak : ch = '\n'
      · rw [hrest, hbreak, splitBreaks] at hsplit
        obtain ⟨rfl, -⟩ := List.cons.inj hsplit
        rfl
      · obtain ⟨line', more', hsplit'⟩ := splitBreaks_eq_cons rest
        have hcons := splitBreaks_append
          (show '\n' ∉ [ch] by simpa using Ne.symm hbreak) hsplit'
        rw [List.singleton_append, ← hrest, hsplit] at hcons
        rw [(List.cons.inj hcons).1, List.singleton_append,
          List.takeWhile_cons_of_neg (by simp [hch])]
  rw [hget, List.takeWhile_append_of_pos hpart, hempty, List.append_nil]

/-- At the end of a line no blank comes next. -/
theorem rest_of_atLineEnd (h : c.atLineEnd = true) :
    c.rest = [] ∨ ∃ ch rest, c.rest = ch :: rest ∧ isIndentChar ch = false := by
  cases hrest : c.rest with
  | nil => exact .inl rfl
  | cons ch rest =>
    refine .inr ⟨ch, rest, rfl, ?_⟩
    simp only [atLineEnd, hrest, Bool.or_eq_true, beq_iff_eq] at h
    rcases h with rfl | rfl <;> rfl

/-- Reading past the end of a line, the cursor stands at the start of the next one. -/
theorem StandsAfter.startsLine {next : Cursor} {x : Char} {k : Nat} {cs : List Char}
    (h : StandsAfter source part c) (hend : c.atLineEnd = true)
    (hread : c.read? = some (x, next)) (hline : (splitBreaks source)[k]? = some cs)
    (hbelow : c.line ≤ k) : StandsAfter source [] next := by
  rcases h.located_of_read? hend hread with hpast | ⟨part', hnext⟩
  · -- The source cannot have ended, as the line is one of its lines.
    have hcount := hpast.line
    have hk := (List.getElem?_eq_some_iff.mp hline).1
    have hnextLine := (nextLine_of_read? hend hread).1
    omega
  · have hcolumn := hnext.column
    rw [(nextLine_of_read? hend hread).2] at hcolumn
    rwa [List.length_eq_zero_iff.mp (show part'.length = 0 by omega)] at hnext

/-- Every line that is passed while indentation is read is led by the style alone. -/
theorem styled_of_readIndent {level : Nat} (h : StandsAfter source part c)
    (hpart : ∀ b ∈ part, isIndentChar b = true ∧ c.style = some b)
    (hread : c.readIndent none = (.ok level, d)) {k : Nat} {cs : List Char}
    (hline : (splitBreaks source)[k]? = some cs) (hfirst : c.line ≤ k + 1)
    (hlast : k + 1 ≤ d.line) :
    ∀ ch ∈ cs.takeWhile isIndentChar, d.style = some ch := by
  have hkeep : ∀ style, c.style = some style → d.style = some style :=
    fun _ => style_of_readIndent hread
  have hblank : ∀ b ∈ part, isIndentChar b = true := fun b hb => (hpart b hb).1
  fun_induction readIndent none c generalizing part with
  | case1 c hnone =>
    obtain ⟨-, rfl⟩ := Prod.mk.inj hread
    rw [h.blanks_of_atLineEnd hblank (.inl (rest_eq_nil_of_read? hnone)) hline (by omega)]
    exact fun b hb => (hpart b hb).2
  | case2 _ _ _ _ _ hlimit => cases hlimit
  | case3 c x next hstep _ _ hend ih =>
    obtain ⟨hnextLine, -⟩ := nextLine_of_read? hend hstep
    rcases Nat.lt_or_ge c.line (k + 1) with hbelow | hhere
    · have hnext := h.startsLine hend hstep hline (by omega)
      exact ih hnext (List.forall_mem_nil _) hread (by omega) (fun _ => style_of_readIndent hread)
        (List.forall_mem_nil _)
    · rw [h.blanks_of_atLineEnd hblank (rest_of_atLineEnd hend) hline (by omega)]
      exact fun b hb => hkeep b (hpart b hb).2
  | case4 c _ _ _ _ _ hend hpeek =>
    have hnil : c.rest = [] := by simpa [peek] using hpeek
    simp [atLineEnd, hnil] at hend
  | case5 c x next hstep _ _ hend ch hpeek hch hnone ih =>
    -- A blank before this one would have fixed the style.
    obtain rfl : part = [] := by
      cases part with
      | nil => rfl
      | cons b rest =>
        have := (hpart b List.mem_cons_self).2
        rw [hnone] at this
        cases this
    obtain ⟨hnext, hnextPart⟩ := h.readBlank hblank hstep hend hpeek hch
    have hsame : next.line = c.line := (passes_of_read? hend hstep).line
    refine ih hnext.withStyle (fun b hb => ⟨hnextPart b hb, ?_⟩) hread (hsame ▸ hfirst)
      (fun _ => style_of_readIndent hread) hnextPart
    obtain rfl : b = ch := by simpa using hb
    rfl
  | case6 c x next hstep _ _ hend style hstyle hpeek hch ih =>
    obtain ⟨hnext, hnextPart⟩ := h.readBlank hblank hstep hend hpeek hch
    have hpasses : c.Passes [x] next := passes_of_read? hend hstep
    refine ih hnext (fun b hb => ⟨hnextPart b hb, ?_⟩) hread (hpasses.line ▸ hfirst)
      (fun _ => style_of_readIndent hread) hnextPart
    rw [hpasses.style]
    rcases List.mem_append.mp hb with hb | hb
    · exact (hpart b hb).2
    · rw [List.mem_singleton.mp hb]
      exact hstyle
  | case7 => cases (Prod.mk.inj hread).1
  | case8 c _ _ _ _ _ _ ch hpeek hch =>
    obtain ⟨-, rfl⟩ := Prod.mk.inj hread
    obtain ⟨rest, hrest⟩ : ∃ rest, c.rest = ch :: rest := by
      simpa [peek, List.head?_eq_some_iff] using hpeek
    rw [h.blanks_of_atLineEnd hblank (.inr ⟨ch, rest, hrest, by simpa using hch⟩) hline (by omega)]
    exact fun b hb => (hpart b hb).2

end Cursor

namespace Lexer

variable {text : String} {acc ts : List Token} {lx next : Lexer} {c : Cursor}
  {style style' : Option Char} {n : Nat}

/-! ### Lines that are settled -/

/-- The first lines of a text begin inside a string or are led by the style alone. -/
def SettledTo (text : String) (acc : List Token) (style : Option Char) (n : Nat) : Prop :=
  ∀ k cs, (lines text.toList)[k]? = some cs → k < n →
    BeginsInString acc (k + 1) ∨ ∀ ch ∈ cs.takeWhile Cursor.isIndentChar, style = some ch

theorem SettledTo.append (h : SettledTo text acc style n)
    (hts : ∀ t ∈ ts, t.kind ≠ .text → (n : Int) ≤ t.line)
    (hstyle : ∀ ch, style = some ch → style' = some ch) :
    SettledTo text (acc ++ ts) style' n := by
  intro k cs hline hk
  refine (h k cs hline hk).imp (fun hbegins => hbegins.append fun t ht hkind => ?_)
    fun hblanks ch hch => hstyle ch (hblanks ch hch)
  have := hts t ht hkind
  omega

/-- The tokens so far stand no lower than some line, texts apart. -/
def MarksUpTo (acc : List Token) (line : Nat) : Prop := ∀ t ∈ acc, t.kind ≠ .text → t.line ≤ line

theorem MarksUpTo.append {line line' : Nat} (h : MarksUpTo acc line) (hle : line ≤ line')
    (hts : MarksUpTo ts line') : MarksUpTo (acc ++ ts) line' := by
  intro t ht hkind
  rcases List.mem_append.mp ht with ht | ht
  · have := h t ht hkind
    omega
  · exact hts t ht hkind

/-- In a string the lines below the tokens so far begin inside it. -/
theorem LaidOut.beginsInString (h : LaidOut text acc lx) (hmode : lx.mode.isString = true)
    {line : Nat} (hmarks : MarksUpTo acc line) (hn : line < n) : BeginsInString acc n := by
  obtain ⟨lines, margin, body, bs, rfl, hline⟩ := h
  obtain ⟨rest, rfl, -⟩ := hline.nested.of_isString hmode
  refine beginsInString_iff.mpr
    ⟨rest, (nesting_filter (fun t ht hp => ?_) []).trans hline.nesting⟩
  refine Decidable.of_not_not fun hkind => ?_
  have := hmarks t ht hkind
  simp only [decide_eq_false_iff_not] at hp
  omega

/-! ### The invariant -/

/-- How many lines have their leading blanks behind the cursor. -/
def settledLines (lx : Lexer) : Nat :=
  if lx.mode = .code ∧ lx.cursor.column = 1 then lx.cursor.line - 1 else lx.cursor.line

/-- The lines that have been read are indented with the style, apart from those in strings. -/
structure Uniform (text : String) (acc : List Token) (lx : Lexer) : Prop where
  located : lx.cursor.Located (normalizeBreaks text.toList)
  marks : MarksUpTo acc lx.cursor.line
  settled : SettledTo text acc lx.cursor.style lx.settledLines

/-- Reading the indentation of a line of code settles all lines up to it. -/
theorem Uniform.readIndent {level : Nat} (h : Uniform text acc lx) (hmode : lx.mode = .code)
    (hcolumn : lx.cursor.column = 1) (hread : lx.cursor.readIndent none = (.ok level, c)) :
    SettledTo text acc c.style c.line := by
  have hsettled := h.settled
  rw [settledLines, if_pos ⟨hmode, hcolumn⟩] at hsettled
  intro k cs hline hk
  rcases Nat.lt_or_ge k (lx.cursor.line - 1) with habove | hbelow
  · exact (hsettled k cs hline habove).imp_right fun hblanks ch hch =>
      Cursor.style_of_readIndent hread (hblanks ch hch)
  · rcases h.located with hpast | ⟨part, hstands⟩
    · have hcount := hpast.line
      have hlength := (List.getElem?_eq_some_iff.mp hline).1
      rw [lines] at hlength
      omega
    · obtain rfl : part = [] := by
        have := hstands.column
        exact List.length_eq_zero_iff.mp (by omega)
      exact .inr (Cursor.styled_of_readIndent hstands (List.forall_mem_nil _) hread hline
        (by omega) hk)

/-- What a step in code does to the line: its tokens stand on it, and only a line end or the
opening quotes of a string leave it. -/
theorem CodeMove.line_spec (h : CodeMove lx ts next) (hmode : lx.mode.isString = false) :
    (∀ t ∈ ts, t.line = lx.cursor.line) ∧ next.cursor.style = lx.cursor.style ∧
      (next.cursor.line = lx.cursor.line ∨ next.cursor.line = lx.cursor.line + 1 ∧
        (next.mode = .code ∧ next.cursor.column = 1 ∨ next.mode.isString = true)) := by
  have hblanks := Cursor.passes_skipBlanks lx.cursor
  cases h with
  | blank => exact ⟨List.forall_mem_nil _, hblanks.style, .inl hblanks.line⟩
  | lineEnd hhole hend hread =>
    obtain ⟨hline, hcolumn⟩ := Cursor.nextLine_of_read? hend hread
    have hcode : lx.mode = .code := by
      cases hm : lx.mode <;> simp_all [Mode.isString]
    refine ⟨?_, (Cursor.style_of_read? hread).trans hblanks.style,
      .inr ⟨by rw [← hblanks.line]; exact hline, .inl ⟨hcode, hcolumn⟩⟩⟩
    simp [Token.atSpan, Cursor.point, Span.point, hblanks.line]
  | token _ hreads =>
    obtain ⟨cs, hpasses, -⟩ := hreads.passes
    refine ⟨?_, hpasses.style.trans hblanks.style, .inl (hpasses.line.trans hblanks.line)⟩
    simp [hreads.line, hblanks.line]
  | openLine hpasses =>
    refine ⟨?_, hpasses.style.trans hblanks.style, .inl (hpasses.line.trans hblanks.line)⟩
    simp [tokenBetween, hblanks.line]
  | @openBlock quotes d string hpasses =>
    have hquotes : ∀ t ∈ [tokenBetween .stringStart quotes lx.cursor.skipBlanks d],
        t.line = lx.cursor.line := by
      simp [tokenBetween, hblanks.line]
    have hd := hpasses.line.trans hblanks.line
    have hstyle := hpasses.style.trans hblanks.style
    refine ⟨hquotes, ?_⟩
    change (skipLineEnd d).style = _ ∧ ((skipLineEnd d).line = _ ∨ (skipLineEnd d).line = _ ∧ _)
    unfold skipLineEnd
    split
    · rename_i hend
      split
      · rename_i hread
        have hline := (Cursor.nextLine_of_read? hend hread).1
        exact ⟨(Cursor.style_of_read? hread).trans hstyle,
          .inr ⟨hline.trans (congrArg (· + 1) hd), .inr rfl⟩⟩
      · exact ⟨hstyle, .inl hd⟩
    · exact ⟨hstyle, .inl hd⟩
  | closeHole _ hpasses =>
    refine ⟨?_, hpasses.style.trans hblanks.style, .inl (hpasses.line.trans hblanks.line)⟩
    simp [Token.atSpan, Cursor.point, Span.point, hblanks.line]

theorem Uniform.codeMove (hlocated : lx.cursor.Located (normalizeBreaks text.toList))
    (hmarks : MarksUpTo acc lx.cursor.line)
    (hsettled : SettledTo text acc lx.cursor.style lx.cursor.line)
    (hmode : lx.mode.isString = false) (hmove : CodeMove lx ts next) {isOpen : Bool}
    (hlaid : LaidOut text (acc ++ ts) { next with lineOpen := isOpen }) :
    Uniform text (acc ++ ts) next := by
  obtain ⟨hlines, hstyle, hnext⟩ := hmove.line_spec hmode
  have hmarks' : MarksUpTo (acc ++ ts) lx.cursor.line :=
    hmarks.append (Nat.le_refl _) fun t ht _ => Int.le_of_eq (hlines t ht)
  have hsettled' : SettledTo text (acc ++ ts) next.cursor.style lx.cursor.line :=
    hsettled.append (fun t ht _ => Int.le_of_eq (hlines t ht).symm) fun _ => hstyle.trans
  refine ⟨hlocated.reaches hmove.reaches, ?_, ?_⟩
  · intro t ht hkind
    have := hmarks' t ht hkind
    have := hmove.reaches.line_le
    omega
  · intro k cs hline hk
    rcases Nat.lt_or_ge k lx.cursor.line with habove | hbelow
    · exact hsettled' k cs hline habove
    · unfold settledLines at hk
      rcases hnext with hsame | ⟨hbelow', ⟨hcode, hcolumn⟩ | hstring⟩
      · split at hk <;> omega
      · rw [if_pos ⟨hcode, hcolumn⟩] at hk
        omega
      · exact .inl (hlaid.beginsInString hstring hmarks' (by omega))

/-- What a step in a string does to the line: a hole or the end of the string stands where the
step ends, and the style is kept. -/
structure StringLine (lx : Lexer) (ts : List Token) (next : Lexer) : Prop where
  marks : ∀ t ∈ ts, t.kind ≠ .text → t.line = next.cursor.line
  style : ∀ ch, lx.cursor.style = some ch → next.cursor.style = some ch

private theorem marks_of_areTexts {line : Int} (h : AreTexts ts) :
    ∀ t ∈ ts, t.kind ≠ .text → t.line = line :=
  fun t ht hkind => absurd (h t ht).1 hkind

private theorem marks_concat {line : Int} {t : Token} (h : AreTexts ts) (ht : t.line = line) :
    ∀ u ∈ ts ++ [t], u.kind ≠ .text → u.line = line := by
  intro u hu hkind
  rcases List.mem_append.mp hu with hu | hu
  · exact absurd (h u hu).1 hkind
  · rw [List.mem_singleton.mp hu, ht]

private theorem stringLine_of_lineString (h : lx.lineString = .ok (ts, next)) :
    StringLine lx ts next := by
  simp only [lineString] at h
  split at h
  · cases h
  rename_i content c hcontent
  obtain ⟨raw, hraw, htext⟩ := readContent_passes hcontent
  have htexts : AreTexts (fragment content lx.cursor c) :=
    fun t ht => ⟨(mem_fragment hraw htext ht).1, (mem_fragment hraw htext ht).2.1⟩
  split at h
  · obtain ⟨rfl, rfl⟩ := Prod.mk.inj (Except.ok.inj h)
    exact ⟨marks_concat htexts rfl, fun _ => hraw.style.trans⟩
  · obtain ⟨rfl, rfl⟩ := Prod.mk.inj (Except.ok.inj h)
    exact ⟨marks_concat htexts rfl, fun _ => hraw.style.trans⟩
  · cases h

private theorem stringLine_of_blockContent {string : BlockString} {c₀ : Cursor}
    (hstyle : ∀ ch, lx.cursor.style = some ch → c₀.style = some ch)
    (h : lx.blockContent string c₀ = .ok (ts, next)) : StringLine lx ts next := by
  simp only [blockContent] at h
  split at h
  · cases h
  rename_i content c hcontent
  obtain ⟨raw, hraw, htext⟩ := readContent_passes hcontent
  have hfragment : AreTexts (fragment content c₀ c) :=
    fun t ht => ⟨(mem_fragment hraw htext ht).1, (mem_fragment hraw htext ht).2.1⟩
  have htexts : AreTexts (lineBreak string.pending ++ fragment content c₀ c) :=
    areTexts_append (areTexts_atSpan _) hfragment
  have hkeep : ∀ ch, lx.cursor.style = some ch → c.style = some ch :=
    fun ch hch => hraw.style.trans (hstyle ch hch)
  split at h
  · cases h
  · obtain ⟨rfl, rfl⟩ := Prod.mk.inj (Except.ok.inj h)
    exact ⟨marks_concat htexts rfl, hkeep⟩
  · obtain ⟨rfl, rfl⟩ := Prod.mk.inj (Except.ok.inj h)
    refine ⟨marks_concat ?_ rfl, hkeep⟩
    split
    · exact List.forall_mem_nil _
    · exact htexts
  · split at h
    · rename_i next' hread
      obtain ⟨rfl, rfl⟩ := Prod.mk.inj (Except.ok.inj h)
      refine ⟨marks_of_areTexts htexts, fun ch hch => ?_⟩
      change next'.style = some ch
      exact (Cursor.style_of_read? hread).trans (hkeep ch hch)
    · cases h

private theorem stringLine_of_blockString {string : BlockString} {before : List Token}
    (h : lx.blockString string = (before, .ok (ts, next))) : StringLine lx (before ++ ts) next := by
  unfold blockString at h
  split at h
  · split at h
    · cases (Prod.mk.inj h).2
    · rename_i tokens string' c hindent
      obtain ⟨rfl, hok⟩ := Prod.mk.inj h
      obtain ⟨hbefore, -⟩ := blockIndentation_cases hindent
      have hstyle : ∀ ch, lx.cursor.style = some ch → c.style = some ch := by
        intro ch hch
        unfold blockIndentation at hindent
        split at hindent
        · cases (Prod.mk.inj hindent).2
        · rename_i hread
          dsimp only at hindent
          split at hindent
          · cases (Prod.mk.inj hindent).2
          · obtain ⟨-, rfl⟩ := Prod.mk.inj (Except.ok.inj (Prod.mk.inj hindent).2)
            exact Cursor.style_of_readIndent hread hch
      obtain ⟨hmarks, hkeep⟩ := stringLine_of_blockContent hstyle hok
      refine ⟨fun t ht hkind => ?_, hkeep⟩
      rcases List.mem_append.mp ht with ht | ht
      · exact absurd (hbefore t ht).1 hkind
      · exact hmarks t ht hkind
  · obtain ⟨rfl, hok⟩ := Prod.mk.inj h
    exact stringLine_of_blockContent (fun _ => id) hok

private theorem stringLine_of_step (hmode : lx.mode.isString = true) (h : lx.step = .more ts next) :
    StringLine lx ts next := by
  unfold step at h
  split at h
  · obtain ⟨own, last, hstring, rfl, rfl⟩ := eq_of_stepTo h
    obtain ⟨hmarks, hstyle⟩ := stringLine_of_lineString hstring
    exact ⟨hmarks, hstyle⟩
  · obtain ⟨own, last, hstring, rfl, rfl⟩ := eq_of_stepTo h
    obtain ⟨hmarks, hstyle⟩ := stringLine_of_blockString (Prod.ext rfl hstring)
    exact ⟨hmarks, hstyle⟩
  · rename_i hhole
    rw [hhole] at hmode
    cases hmode
  · rename_i hcode
    rw [hcode] at hmode
    cases hmode

private theorem settledLines_of_ne {lx : Lexer} (h : ¬(lx.mode = .code ∧ lx.cursor.column = 1)) :
    lx.settledLines = lx.cursor.line := if_neg h

theorem Uniform.step (h : Uniform text acc lx) (hlaid : LaidOut text acc lx)
    (hstep : lx.step = .more ts next) : Uniform text (acc ++ ts) next := by
  have hnextLaid := hlaid.step hstep
  obtain ⟨last, hmove, rfl⟩ := step_more hstep
  have hreach := hmove.reaches
  cases hmove with
  | string hmode hstring =>
    obtain ⟨hmarks, hstyle⟩ := stringLine_of_step hmode hstep
    have hline := hreach.line_le
    have hsettled := h.settled
    rw [settledLines_of_ne (fun hcode => by simp [hcode.1, Mode.isString] at hmode)] at hsettled
    have hbelow : ∀ t ∈ ts, t.kind ≠ .text → (last.cursor.line : Int) ≤ t.line :=
      fun t ht hkind => Int.le_of_eq (hmarks t ht hkind).symm
    refine ⟨h.located.reaches hreach,
      h.marks.append hline fun t ht hkind => Int.le_of_eq (hmarks t ht hkind), ?_⟩
    intro k cs hk hcount
    have hcount : k < last.cursor.line := by
      refine Nat.lt_of_lt_of_le hcount ?_
      unfold settledLines
      split
      · exact Nat.sub_le _ _
      · exact Nat.le_refl _
    rcases Nat.lt_or_ge k lx.cursor.line with habove | hhere
    · refine hsettled.append (fun t ht hkind => ?_) hstyle k cs hk habove
      have := hbelow t ht hkind
      omega
    · -- The lines that the step has read begin inside the string.
      refine .inl ((hlaid.beginsInString hmode h.marks (by omega)).append fun t ht hkind => ?_)
      have := hbelow t ht hkind
      omega
  | inside hmode hcode =>
    have hstring : lx.mode.isString = false := by
      rcases hmode with hmode | ⟨hmode, -⟩ <;> rw [hmode] <;> rfl
    have hsettled := h.settled
    rw [settledLines_of_ne (fun hstart => by simp_all)] at hsettled
    obtain ⟨hlocated, hmarks, hlines⟩ :=
      Uniform.codeMove h.located h.marks hsettled hstring hcode hnextLaid
    exact ⟨hlocated, hmarks, hlines⟩
  | @line before own start _ hmode hcolumn hmargin hcode =>
    obtain ⟨level, c, hread, hstart, hmodes, hbefore⟩ : ∃ level c,
        lx.cursor.readIndent none = (.ok level, c) ∧ start.cursor = c ∧
          start.modes = lx.modes ∧ ∀ t ∈ before, t.line = c.line := by
      cases hmargin with
      | wider hread => exact ⟨_, _, hread, rfl, rfl, by simp⟩
      | narrower hread =>
        exact ⟨_, _, hread, rfl, rfl, by simp +contextual [Token.atSpan, Span.point]⟩
    subst hstart
    have hstring : start.mode.isString = false := by
      rw [mode, hmodes, ← mode, hmode]
      rfl
    rw [← List.append_assoc] at hnextLaid ⊢
    have hmarks : MarksUpTo (acc ++ before) start.cursor.line :=
      h.marks.append hmargin.reaches.line_le fun t ht _ => Int.le_of_eq (hbefore t ht)
    have hsettled : SettledTo text (acc ++ before) start.cursor.style start.cursor.line :=
      (h.readIndent hmode hcolumn hread).append
        (fun t ht _ => Int.le_of_eq (hbefore t ht).symm) fun _ => id
    obtain ⟨hlocated, hmarks', hlines⟩ := Uniform.codeMove
      (h.located.reaches hmargin.reaches) hmarks hsettled hstring hcode hnextLaid
    exact ⟨hlocated, hmarks', hlines⟩

/-- At the end of the source every line is settled. -/
theorem Uniform.done (h : Uniform text acc lx) (hstep : lx.step = .done ts) :
    ∃ style, ∀ ch, LeadsLine text (acc ++ ts) ch → style = some ch := by
  obtain ⟨hmode, c, hending, hts⟩ := step_done hstep
  have hlines : ∀ t ∈ ts, (c.line : Int) ≤ t.line := by
    have hpoint : ∀ kind text, (Token.atSpan kind text c.point).line = c.line := fun _ _ => rfl
    intro t ht
    rw [hts] at ht
    simp only [List.mem_append, List.mem_map, List.mem_singleton] at ht
    rcases ht with (ht | ⟨_, -, rfl⟩) | rfl
    · split at ht
      · rw [List.mem_singleton.mp ht]
        exact Int.le_of_eq (hpoint _ _).symm
      · cases ht
    · exact Int.le_of_eq (hpoint _ _).symm
    · exact Int.le_of_eq (hpoint _ _).symm
  have hrest : c.rest = [] := hending.skips.2
  have hsettled : SettledTo text acc c.style c.line := by
    cases hending with
    | here hend =>
      by_cases hcolumn : lx.cursor.column = 1
      · -- Nothing is left to read as indentation.
        have hread : lx.cursor.readIndent none = (.ok 0, lx.cursor) := by
          rw [Cursor.readIndent]
          split
          · rfl
          · rename_i hread
            simp [Cursor.read?, hrest] at hread
        exact h.readIndent hmode hcolumn hread
      · have hsettled := h.settled
        rwa [settledLines_of_ne (fun hstart => hcolumn hstart.2)] at hsettled
    | blankLines hcolumn hread => exact h.readIndent hmode hcolumn hread
  refine ⟨c.style, ?_⟩
  rintro ch ⟨n, cs, hline, houtside, hch⟩
  have hn : n < c.line := Nat.lt_of_lt_of_le (List.getElem?_eq_some_iff.mp hline).1
    ((h.located.reaches hending.reaches).length_le_line hrest)
  have hall : SettledTo text (acc ++ ts) c.style c.line :=
    hsettled.append (fun t ht _ => hlines t ht) fun _ => id
  exact (hall n cs hline hn).resolve_left houtside ch hch

private theorem uniform_ofText (text : String) : Uniform text [] (ofText text) := by
  refine ⟨Cursor.located_ofText text, List.forall_mem_nil _, fun k cs _ hk => ?_⟩
  simp [settledLines, ofText, mode, Cursor.ofText] at hk

end Lexer

/-- The tokens of a text without faults know one character that leads its lines. -/
theorem leadsLine_unique {text : String} (hfault : (tokensOf text).fault = none) :
    ∃ style, ∀ ch, LeadsLine text (tokensOf text).items ch → style = some ch := by
  refine Lexer.invariant_of_tokens
    (P := fun acc lx => Lexer.LaidOut text acc lx ∧ Lexer.Uniform text acc lx)
    (Q := fun listing => listing.fault = none →
      ∃ style, ∀ ch, LeadsLine text listing.items ch → style = some ch) ?_ ?_ ?_
    ⟨Lexer.laidOut_ofText text, Lexer.uniform_ofText text⟩ hfault
  · intro acc lx ts next h hstep
    exact ⟨h.1.step hstep, h.2.step h.1 hstep⟩
  · intro acc lx ts h hstep _
    exact h.2.done hstep
  · intro acc lx ts e _ _ hnone
    cases hnone

/-- A source has one indentation style: all blanks that lead a line are the same character, also
on blank lines and in front of comments, unless the line begins inside a string. A source in which
two of them differ has no tokens. -/
theorem tokenize_oneStyle (text : String) :
    (∀ tokens, tokenize text = .ok tokens →
      ∃ style, Cursor.isIndentChar style = true ∧ ∀ ch, LeadsLine text tokens ch → ch = style) ∧
    ∀ a b, LeadsLine text (tokensOf text).items a → LeadsLine text (tokensOf text).items b →
      a ≠ b → ∃ e, tokenize text = .error e := by
  constructor
  · intro tokens h
    obtain ⟨rfl, hfault⟩ := Listing.eq_of_toExcept h
    obtain ⟨style?, hstyle⟩ := leadsLine_unique hfault
    by_cases hlead : ∃ ch, LeadsLine text (tokensOf text).items ch
    · obtain ⟨style, hleads⟩ := hlead
      obtain ⟨n, cs, -, -, hmem⟩ := id hleads
      refine ⟨style, List.all_eq_true.mp List.all_takeWhile _ hmem, fun ch hch => ?_⟩
      exact Option.some.inj ((hstyle ch hch).symm.trans (hstyle style hleads))
    · exact ⟨' ', rfl, fun ch hch => absurd ⟨ch, hch⟩ hlead⟩
  · intro a b ha hb hne
    cases hfault : (tokensOf text).fault with
    | none =>
      obtain ⟨style?, hstyle⟩ := leadsLine_unique hfault
      exact absurd (Option.some.inj ((hstyle a ha).symm.trans (hstyle b hb))) hne
    | some e => exact ⟨e, by simp [tokenize, Listing.toExcept, hfault]⟩

/-- Within a string a line may be indented with the other character, and outside of strings not
even a blank line may be. -/
theorem tokenize_oneStyle_blankLine :
    (∃ tokens, tokenize "if a\n\t# b\n\t<< \"\"\"\n\t c\n\t\"\"\"\n\t" = .ok tokens ∧
      ∃ style, Cursor.isIndentChar style = true ∧ ∀ ch,
        LeadsLine "if a\n\t# b\n\t<< \"\"\"\n\t c\n\t\"\"\"\n\t" tokens ch → ch = style) ∧
      ∃ e, tokenize "a = 1\n\t\n # b" = .error e := by
  refine ⟨?_, ?_⟩
  · have hsome : (tokenize "if a\n\t# b\n\t<< \"\"\"\n\t c\n\t\"\"\"\n\t").toOption.isSome
        = true := by decide +kernel
    cases h : tokenize "if a\n\t# b\n\t<< \"\"\"\n\t c\n\t\"\"\"\n\t" with
    | error e =>
      rw [h] at hsome
      cases hsome
    | ok tokens => exact ⟨tokens, rfl, (tokenize_oneStyle _).1 tokens h⟩
  · exact (tokenize_oneStyle _).2 '\t' ' '
      ⟨1, ['\t'], by decide +kernel, by decide +kernel, by decide⟩
      ⟨2, [' ', '#', ' ', 'b'], by decide +kernel, by decide +kernel, by decide⟩ (by decide)

end DialogScript
