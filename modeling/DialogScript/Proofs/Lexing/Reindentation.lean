import DialogScript.Proofs.Lexing.Lockstep

/-!
# Other widths of indentation

Only the order of the widths of indentation matters. A text whose lines are led by one blank
character can be led by another one, and the widths of its lines can be changed in any way that
keeps their order, without any effect on what its tokens are (`tokenize_reindented`). Block
strings are the exception, since the blanks beyond their margin are text.
-/

namespace DialogScript

namespace Text

/-- A line led by another number of another blank character. -/
def reindentLine (width : Nat → Nat) (blank : Char) (line : List Char) : List Char :=
  List.replicate (width (line.takeWhile Cursor.isIndentChar).length) blank ++
    line.dropWhile Cursor.isIndentChar

/-- The blanks at the start of a line are copies of one character. -/
def LedBy (ch : Char) (line : List Char) : Prop :=
  ∀ x ∈ line.takeWhile Cursor.isIndentChar, x = ch

instance (ch : Char) (line : List Char) : Decidable (LedBy ch line) :=
  List.decidableBAll (· = ch) (line.takeWhile Cursor.isIndentChar)

private theorem prefix_of_prefix_normalizeBreaks {cs part : List Char} (hpart : '\n' ∉ part)
    (h : part <+: normalizeBreaks cs) : part <+: cs := by
  fun_induction normalizeBreaks cs generalizing part with
  | case1 => exact h
  | case2 rest ih =>
    cases part with
    | nil => exact List.nil_prefix
    | cons x part =>
      obtain ⟨rfl, -⟩ := List.cons_prefix_cons.mp h
      exact absurd List.mem_cons_self hpart
  | case3 c rest _ ih =>
    cases part with
    | nil => exact List.nil_prefix
    | cons x part =>
      rw [List.mem_cons, not_or] at hpart
      obtain ⟨hx, hrest⟩ := List.cons_prefix_cons.mp h
      have hplain : isBreak c ≠ true := by
        intro hbreak
        rw [if_pos hbreak] at hx
        exact hpart.1 hx.symm
      rw [if_neg hplain] at hx
      exact List.cons_prefix_cons.mpr ⟨hx, ih hpart.2 hrest⟩

/-- Writing line breaks alike brings no other characters together. -/
theorem infix_of_infix_normalizeBreaks {cs part : List Char} (hpart : '\n' ∉ part)
    (h : part <:+: normalizeBreaks cs) : part <:+: cs := by
  fun_induction normalizeBreaks cs with
  | case1 => exact h
  | case2 rest ih =>
    rcases List.infix_cons_iff.mp h with hprefix | hpart
    · cases part with
      | nil => exact List.nil_infix
      | cons x part =>
        obtain ⟨rfl, -⟩ := List.cons_prefix_cons.mp hprefix
        exact absurd List.mem_cons_self hpart
    · exact List.infix_cons (List.infix_cons (ih hpart))
  | case3 c rest hpair ih =>
    rcases List.infix_cons_iff.mp h with hprefix | hpart
    · refine (prefix_of_prefix_normalizeBreaks hpart ?_).isInfix
      rwa [normalizeBreaks]
      exact hpair
    · exact List.infix_cons (ih hpart)

end Text

open Text

/-- A text led by one character, and the text with its lines led by other widths of another. -/
def reindented (width : Nat → Nat) (ch blank : Char) : Relayout where
  lines cs ds := (∀ line ∈ splitBreaks cs, LedBy ch line) ∧
    splitBreaks ds = (splitBreaks cs).map (reindentLine width blank)
  styles s s' := (s = none ∨ s = some ch) ∧ (s' = none ∨ s' = some blank)
  width := width

namespace Relayout

variable {width : Nat → Nat} {ch blank : Char} {cs ds : List Char} {c d : Cursor}

/-- The margin of the first line is all that differs on it. -/
theorem exists_margin (h : (reindented width ch blank).lines cs ds) :
    ∃ n rest rest', cs = List.replicate n ch ++ rest ∧
      ds = List.replicate (width n) blank ++ rest' ∧
      AgreeOnLine (reindented width ch blank).lines rest rest' ∧
      ∀ x ∈ rest.head?, Cursor.isIndentChar x = false := by
  obtain ⟨hled, hsplit'⟩ := h
  obtain ⟨line, more, hsplit⟩ := splitBreaks_eq_cons cs
  rw [hsplit] at hled hsplit'
  obtain ⟨hplain, htail⟩ := exists_tail_of_splitBreaks hsplit
  obtain ⟨-, htail'⟩ := exists_tail_of_splitBreaks hsplit'
  obtain ⟨hfirst, hmore⟩ := List.forall_mem_cons.mp hled
  -- A line is its margin and then its ink, which the other layout keeps.
  have hmargin : line.takeWhile Cursor.isIndentChar
      = List.replicate (line.takeWhile Cursor.isIndentChar).length ch :=
    List.eq_replicate_iff.mpr ⟨rfl, hfirst⟩
  have hline := List.takeWhile_append_dropWhile (p := Cursor.isIndentChar) (l := line)
  rw [hmargin] at hline
  have hink : '\n' ∉ line.dropWhile Cursor.isIndentChar :=
    fun hmem => hplain ((List.dropWhile_suffix _).subset hmem)
  have hstop : ∀ tail : List Char, (∀ x ∈ tail.head?, x = '\n') →
      ∀ x ∈ (line.dropWhile Cursor.isIndentChar ++ tail).head?,
        Cursor.isIndentChar x = false := by
    intro tail htail x hx
    cases hdrop : line.dropWhile Cursor.isIndentChar with
    | nil =>
      rw [hdrop] at hx
      rw [htail x hx]
      rfl
    | cons y ink =>
      rw [hdrop] at hx
      obtain rfl := Option.some.inj hx
      have hne : line.dropWhile Cursor.isIndentChar ≠ [] := by simp [hdrop]
      simpa [hdrop] using List.head_dropWhile_not Cursor.isIndentChar hne
  refine ⟨(line.takeWhile Cursor.isIndentChar).length, ?_⟩
  rcases htail with ⟨rfl, rfl⟩ | ⟨after, rfl, hafter⟩
  · rcases htail' with ⟨rfl, -⟩ | ⟨after', -, hafter'⟩
    · refine ⟨_, _, hline.symm, rfl, ?_, ?_⟩
      · simpa using AgreeOnLine.append hink .nil
      · simpa using hstop [] (by simp)
    · exact absurd hafter' (splitBreaks_ne_nil _)
  · rcases htail' with ⟨-, hnil⟩ | ⟨after', rfl, hafter'⟩
    · rw [List.map_eq_nil_iff, ← hafter] at hnil
      exact absurd hnil (splitBreaks_ne_nil _)
    · refine ⟨line.dropWhile Cursor.isIndentChar ++ '\n' :: after,
        line.dropWhile Cursor.isIndentChar ++ '\n' :: after', ?_, ?_, ?_, hstop _ (by simp)⟩
      · rw [← List.append_assoc, hline]
      · rw [← List.append_assoc]
        rfl
      · refine AgreeOnLine.append hink (.lineEnd ⟨?_, ?_⟩)
        · rwa [hafter]
        · rw [hafter', hafter]

private theorem reindented_nil (hzero : width 0 = 0) : (reindented width ch blank).lines [] [] := by
  refine ⟨?_, ?_⟩
  · intro line hline
    obtain rfl := List.mem_singleton.mp hline
    exact List.forall_mem_nil _
  · simp [splitBreaks, reindentLine, hzero]

/-- Indentation is read alike: every line is as wide as the other layout says. -/
theorem readIndent_reindented (hwidth : StrictMono width) (hzero : width 0 = 0)
    (hch : Cursor.isIndentChar ch = true) (hblank : Cursor.isIndentChar blank = true)
    (h : (reindented width ch blank).AtStart c d) :
    ∃ level c' d', c.readIndent none = (.ok level, c') ∧
      d.readIndent none = (.ok (width level), d') ∧
      (reindented width ch blank).Within c' d' := by
  -- The induction is on the text that is left, one line after the other.
  induction hleft : c.remaining using Nat.strong_induction_on generalizing c d with
  | h left ih =>
  obtain ⟨n, rest, rest', hc, hd, hagree, hstop⟩ := exists_margin h.rest
  have hwithin : (reindented width ch blank).Within (c.pastBlanks ch n rest)
      (d.pastBlanks blank (width n) rest') := by
    refine ⟨hagree, ?_, Cursor.style_pastBlanks h.styles.1 n rest,
      Cursor.style_pastBlanks h.styles.2 (width n) rest'⟩
    simp only [Cursor.pastBlanks, Cursor.forward, h.left, h.right]
    rcases Nat.eq_zero_or_pos n with rfl | hn
    · exact .inl ⟨rfl, by rw [hzero]⟩
    · have hpos := hzero ▸ hwidth hn
      omega
  have hcolumn : (c.pastBlanks ch n rest).column = 1 + n := by
    rw [← h.left]
    rfl
  have hcolumn' : (d.pastBlanks blank (width n) rest').column = 1 + width n := by
    rw [← h.right]
    rfl
  have hle : rest.length ≤ c.remaining := by simp [Cursor.remaining, hc]
  rw [Cursor.readIndent_blanks hch hc (fun _ => h.styles.1) (by simp),
    Cursor.readIndent_blanks hblank hd (fun _ => h.styles.2) (by simp)]
  generalize hc₁ : c.pastBlanks ch n rest = c₁, hd₁ : d.pastBlanks blank (width n) rest' = d₁
    at hwithin hcolumn hcolumn'
  have hrest₁ : c₁.rest = rest := by rw [← hc₁]; rfl
  cases hnext : c₁.read? with
  | none =>
    have hnil := Cursor.rest_eq_nil_of_read? hnext
    refine ⟨0, c₁, d₁, Cursor.readIndent_of_nil hnil, ?_, hwithin⟩
    rw [Cursor.readIndent_of_nil (hwithin.rest.eq_nil hnil), hzero]
  | some result =>
    obtain ⟨x, next⟩ := result
    cases hend : c₁.atLineEnd with
    | true =>
      obtain ⟨next', hnext', hstart⟩ := hwithin.read? (reindented_nil hzero) hend hnext
      have hend' := hwithin.atLineEnd.trans hend
      rw [Cursor.readIndent_of_read? hnext, Cursor.readIndent_of_read? hnext', hend, hend']
      refine ih next.remaining ?_ hstart rfl
      have hlt := Cursor.remaining_lt_of_read? hnext
      rw [Cursor.remaining, Cursor.remaining, hrest₁] at hlt
      rw [Cursor.remaining]
      omega
    | false =>
      obtain ⟨y, more, hrest⟩ := List.exists_cons_of_ne_nil (Cursor.rest_ne_nil_of_read? hnext)
      have hagree₁ := hwithin.rest
      rw [hrest] at hagree₁
      obtain ⟨more', hrest', -⟩ := hagree₁.exists_cons
      have hy : Cursor.isIndentChar y = false := hstop y (by rw [← hrest₁, hrest]; rfl)
      refine ⟨n, c₁, d₁, ?_, ?_, hwithin⟩
      · rw [Cursor.readIndent_of_ink hrest hend hy, hcolumn, Nat.add_sub_cancel_left]
      · rw [Cursor.readIndent_of_ink hrest' (hwithin.atLineEnd.trans hend) hy, hcolumn',
          Nat.add_sub_cancel_left]

private theorem sound_reindented (hwidth : StrictMono width) (hzero : width 0 = 0)
    (hch : Cursor.isIndentChar ch = true) (hblank : Cursor.isIndentChar blank = true) :
    (reindented width ch blank).Sound where
  nil := reindented_nil hzero
  canRead := by
    intro cs ds h
    obtain ⟨n, rest, rest', rfl, rfl, hagree, -⟩ := exists_margin h
    have hn : width n = 0 ↔ n = 0 := by
      simpa [hzero] using hwidth.injective.eq_iff (a := n) (b := 0)
    have hrest : rest' = [] ↔ rest = [] := by
      refine ⟨fun hnil => ?_, hagree.eq_nil⟩
      by_contra hne
      exact hagree.ne_nil hne hnil
    simp [hn, hrest]
  zero := hzero
  mono := hwidth
  indent := fun h => .inr (readIndent_reindented hwidth hzero hch hblank h)

end Relayout

/-- The two texts are side by side from the start. -/
theorem beside_ofText {text text' : String} {width : Nat → Nat} {ch blank : Char}
    (hled : ∀ line ∈ lines text.toList, LedBy ch line) (hzero : width 0 = 0)
    (htext : lines text'.toList = (lines text.toList).map (reindentLine width blank)) :
    (reindented width ch blank).Beside (Lexer.ofText text) (Lexer.ofText text') := by
  refine .start ⟨⟨⟨hled, htext⟩, rfl, rfl, .inl rfl, .inl rfl⟩, .cons .code .nil, ?_, rfl⟩
    (by simp [Lexer.ofText, Lexer.mode]) (by simp [Lexer.ofText, Lexer.mode])
  exact congrArg ([·]) hzero.symm

private theorem blockFree_ofText {text : String} (hquotes : ¬['"', '"', '"'] <:+: text.toList) :
    (Lexer.ofText text).BlockFree where
  modes := by simp [Lexer.ofText]
  rest := fun hpart => hquotes (infix_of_infix_normalizeBreaks (by decide) hpart)

/-- A text without three quotes in a row, whose lines are led by one blank character, can be led
by another one, and by other widths in the same order: it has tokens if and only if the other
text has, and their kinds and texts are the same. -/
theorem tokenize_reindented {text text' : String} {width : Nat → Nat} {ch blank : Char}
    (hch : Cursor.isIndentChar ch = true) (hled : ∀ line ∈ lines text.toList, LedBy ch line)
    (hquotes : ¬['"', '"', '"'] <:+: text.toList) (hwidth : StrictMono width) (hzero : width 0 = 0)
    (hblank : Cursor.isIndentChar blank = true)
    (htext : lines text'.toList = (lines text.toList).map (reindentLine width blank)) :
    ((∃ us, tokenize text' = .ok us) ↔ ∃ ts, tokenize text = .ok ts) ∧
      ∀ ts us, tokenize text = .ok ts → tokenize text' = .ok us →
        us.map (fun u => (u.kind, u.text)) = ts.map fun t => (t.kind, t.text) := by
  obtain ⟨hitems, hfault⟩ := (beside_ofText hled hzero htext).tokens
    (Relayout.sound_reindented hwidth hzero hch hblank) (.inr (blockFree_ofText hquotes))
  exact SameLexemes.toExcept hitems hfault

/-- A blank line, a comment and two blocks that end together. -/
def ledBySpaces : String := "if a\n  if b\n    << \"c\"\n \n  # d\n  e = 1"

/-- The same lines led by tabs, half as many again. -/
def ledByTabs : String :=
  "if a\n\t\t\tif b\n\t\t\t\t\t\t<< \"c\"\n\t\n\t\t\t# d\n\t\t\te = 1"

theorem tokenize_reindented_ledByTabs :
    ((∀ line ∈ lines ledBySpaces.toList, LedBy ' ' line) ∧
        ¬['"', '"', '"'] <:+: ledBySpaces.toList ∧ StrictMono (fun n => n + n / 2) ∧
        lines ledByTabs.toList = (lines ledBySpaces.toList).map
          (reindentLine (fun n => n + n / 2) '\t')) ∧
      ∃ ts us, tokenize ledBySpaces = .ok ts ∧ tokenize ledByTabs = .ok us ∧ ts ≠ us ∧
        us.map (fun u => (u.kind, u.text)) = ts.map fun t => (t.kind, t.text) := by
  have hled : ∀ line ∈ lines ledBySpaces.toList, LedBy ' ' line := by decide +kernel
  have hquotes : ¬['"', '"', '"'] <:+: ledBySpaces.toList := by decide +kernel
  have hwidth : StrictMono fun n => n + n / 2 := fun m n h => by
    dsimp only
    omega
  have hlines : lines ledByTabs.toList = (lines ledBySpaces.toList).map
      (reindentLine (fun n => n + n / 2) '\t') := by decide +kernel
  refine ⟨⟨hled, hquotes, hwidth, hlines⟩, ?_⟩
  obtain ⟨hiff, hsame⟩ := tokenize_reindented rfl hled hquotes hwidth rfl rfl hlines
  have hok : (tokenize ledBySpaces).toOption.isSome = true := by decide +kernel
  have hne : (tokenize ledBySpaces).toOption ≠ (tokenize ledByTabs).toOption := by decide +kernel
  cases hts : tokenize ledBySpaces with
  | error e =>
    rw [hts] at hok
    cases hok
  | ok ts =>
    obtain ⟨us, hus⟩ := hiff.mpr ⟨ts, hts⟩
    refine ⟨ts, us, rfl, hus, ?_, hsame ts us hts hus⟩
    rintro rfl
    exact hne (by rw [hts, hus])

end DialogScript
