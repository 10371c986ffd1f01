import DialogScript.Proofs.Lexing.LineStarts
import DialogScript.Proofs.Printing.Lines

/-!
# Texts written as block strings

A text can be written as a block string, each of its lines behind the margin of the block that the
string stands in (`WrittenLine`). Read line by line, each line gives its own text and leaves its
line break waiting (`AtBlockLine.writtenLine`), up to the closing quotes, which drop the last break
(`AtBlockLine.close`). So the tokens of the whole string hold the text that was written
(`AtBlockLine.blockText`).

A literal and a block string in its place leave the lexer in the same state but for the number of
the line. The tokens of a text in which a block string stands for a literal are therefore the ones
of the text with the literal, except for the string itself (`tokensOf_blockText`).
-/

namespace DialogScript

open Text Lexer

/-- A line of a text as it is written in a block string: behind the margin, with escapes. An empty
line may be left blank. -/
inductive WrittenLine (margin : List Char) : List Char → List Char → Prop
  | whole (line : List Char) : WrittenLine margin line (margin ++ escape line)
  | blank {blanks : List Char} (h : blanks <+: margin) : WrittenLine margin [] blanks

/-! ### The text of lines -/

namespace Text

/-- The text of some lines, after a line break if there was one. -/
def joined (broken : Bool) : List (List Char) → List Char
  | [] => []
  | line :: more => (if broken then ['\n'] else []) ++ line ++ joined true more

private theorem joined_false (lines : List (List Char)) :
    joined false lines = ['\n'].intercalate lines := by
  have hbroken : ∀ line more, line ++ joined true more = ['\n'].intercalate (line :: more) := by
    intro line more
    induction more generalizing line with
    | nil => simp [joined]
    | cons next more ih =>
      rw [List.intercalate_cons_cons, ← ih next]
      simp [joined]
  cases lines with
  | nil => rfl
  | cons line more => exact hbroken line more

private theorem head?_joined (below : List (List Char)) :
    ∀ x ∈ (joined true below).head?, x = '\n' := by
  cases below with
  | nil => simp [joined]
  | cons line more => simp [joined]

/-- Lines in front of other lines, each with its own break. -/
theorem joined_append (lines : List (List Char)) (line : List Char) (below : List (List Char)) :
    joined true (lines ++ line :: below) =
      '\n' :: (lines.flatMap (· ++ ['\n']) ++ (line ++ joined true below)) := by
  induction lines with
  | nil => simp [joined]
  | cons first lines ih => simp [joined, ih]

/-- A line of a text holds no line feed and is a part of the text. -/
theorem infix_of_mem_splitBreaks {cs line : List Char} (h : line ∈ splitBreaks cs) :
    '\n' ∉ line ∧ line <:+: cs := by
  induction hleft : cs.length using Nat.strong_induction_on generalizing cs with
  | h left ih =>
  obtain ⟨first, more, hsplit⟩ := splitBreaks_eq_cons cs
  obtain ⟨hfirst, htail⟩ := exists_tail_of_splitBreaks hsplit
  rw [hsplit] at h
  rcases htail with ⟨rfl, rfl⟩ | ⟨rest, rfl, rfl⟩
  · rw [List.mem_singleton.mp h]
    exact ⟨hfirst, List.infix_rfl⟩
  · rcases List.mem_cons.mp h with rfl | h
    · exact ⟨hfirst, List.infix_append' [] _ _⟩
    · obtain ⟨hline, hpart⟩ := ih rest.length (by simp at hleft; omega) h rfl
      exact ⟨hline, hpart.trans ((List.suffix_cons _ _).trans (List.suffix_append _ _)).isInfix⟩

/-- Lines without line breaks are the lines of the text that they are joined to. -/
theorem lines_intercalate {ls : List (List Char)} (hne : ls ≠ [])
    (h : ∀ line ∈ ls, Unbroken line) : lines (['\n'].intercalate ls) = ls := by
  have hsplit : (∀ c ∈ ['\n'].intercalate ls, isBreak c = true → c = '\n') ∧
      splitBreaks (['\n'].intercalate ls) = ls := by
    induction ls with
    | nil => exact absurd rfl hne
    | cons line more ih =>
      obtain ⟨hline, hmore⟩ := List.forall_mem_cons.mp h
      have hfeed : '\n' ∉ line := fun hmem => absurd (hline _ hmem) (by decide)
      cases more with
      | nil =>
        refine ⟨fun c hc hbreak => ?_, ?_⟩
        · rw [List.intercalate_singleton] at hc
          rw [hline c hc] at hbreak
          cases hbreak
        · have hcut : splitBreaks (line ++ []) = [line ++ []] := splitBreaks_append hfeed rfl
          simpa using hcut
      | cons next more =>
        obtain ⟨hplain, hsplit⟩ := ih (by simp) hmore
        rw [List.intercalate_cons_cons]
        refine ⟨fun c hc hbreak => ?_, ?_⟩
        · rcases List.mem_append.mp hc with hc | hc
          · rcases List.mem_append.mp hc with hc | hc
            · rw [hline c hc] at hbreak
              cases hbreak
            · exact List.mem_singleton.mp hc
          · exact hplain c hc hbreak
        · have hcut : splitBreaks ('\n' :: ['\n'].intercalate (next :: more)) =
              [] :: next :: more := by rw [splitBreaks, hsplit]
          rw [List.append_assoc]
          simpa using splitBreaks_append hfeed hcut
  rw [lines, normalizeBreaks_eq_self hsplit.1, hsplit.2]

theorem unbroken_of_mem_lines {cs line : List Char} (h : line ∈ lines cs) : Unbroken line := by
  intro c hc
  obtain ⟨hfeed, hpart⟩ := infix_of_mem_splitBreaks h
  rw [Bool.eq_false_iff]
  intro hbreak
  obtain rfl := eq_of_mem_normalizeBreaks c (hpart.subset hc) hbreak
  exact hfeed hc

end Text

/-- The lines of a text are written on lines. -/
theorem unbroken_of_written {margin cs : List Char} {raws : List (List Char)}
    (hmargin : Unbroken margin) (hcs : ∀ c ∈ cs, c ∉ ['#', '\u0085', '\u2028', '\u2029'])
    (hraws : List.Forall₂ (WrittenLine margin) (splitBreaks cs) raws) :
    ∀ raw ∈ raws, Unbroken raw := by
  have hlines : ∀ line ∈ splitBreaks cs, Unbroken (escape line) := by
    intro line hline
    refine unbroken_escape fun c hc hmem => ?_
    have hplain := hcs c ((infix_of_mem_splitBreaks hline).2.subset hc)
    simp only [unwritable, List.mem_cons, List.not_mem_nil, or_false, not_or] at hmem hplain
    tauto
  generalize splitBreaks cs = ls at hlines hraws
  induction hraws with
  | nil => exact List.forall_mem_nil _
  | cons hraw _ ih =>
    obtain ⟨hline, hlines⟩ := List.forall_mem_cons.mp hlines
    refine List.forall_mem_cons.mpr ⟨?_, ih hlines⟩
    cases hraw with
    | whole => exact hmargin.append hline
    | blank hblanks => exact fun c hc => hmargin c (hblanks.subset hc)

/-! ### Lines of block strings -/

/-- Tokens of text that hold some text together. -/
structure TextsOf (cs : List Char) (ts : List Token) : Prop where
  kinds : ∀ t ∈ ts, t.kind = .text
  texts : ts.flatMap (fun t => t.text.toList) = cs

namespace TextsOf

variable {cs ds : List Char} {ts us : List Token}

theorem nil : TextsOf [] [] := ⟨List.forall_mem_nil _, rfl⟩

theorem append (h : TextsOf cs ts) (h' : TextsOf ds us) : TextsOf (cs ++ ds) (ts ++ us) where
  kinds t ht := (List.mem_append.mp ht).elim (h.kinds t) (h'.kinds t)
  texts := by rw [List.flatMap_append, h.texts, h'.texts]

theorem lineBreak (pending : Option Span) :
    TextsOf (if pending.isSome then ['\n'] else []) (Lexer.lineBreak pending) := by
  cases pending with
  | none => exact .nil
  | some s => constructor <;> simp [Lexer.lineBreak, Token.atSpan]

theorem fragment (cs : List Char) (c d : Cursor) : TextsOf cs (Lexer.fragment cs c d) := by
  unfold Lexer.fragment
  cases cs with
  | nil => exact .nil
  | cons x cs => exact ⟨by simp, by simp [toList_text_tokenBetween]⟩

end TextsOf

namespace Cursor

variable {c : Cursor} {ch : Char} {cs : List Char} {width : Nat}

private theorem pastBlanks_eq_forward (hstyle : 0 < width → c.style = some ch) (rest : List Char) :
    c.pastBlanks ch width rest = c.forward width rest := by
  unfold pastBlanks
  split
  · rfl
  · rw [← hstyle (by omega)]
    rfl

/-- The margin of a block string is read, and no blank behind it. -/
theorem readIndent_limit (hch : isIndentChar ch = true)
    (hrest : c.rest = List.replicate width ch ++ cs) (hne : cs ≠ []) (hcolumn : c.column = 1)
    (hstyle : 0 < width → c.style = some ch) :
    c.readIndent (some width) = (.ok width, c.forward width cs) := by
  rw [readIndent_blanks hch hrest (fun h => .inr (hstyle h)) (by simp [hcolumn, Nat.add_comm]),
    pastBlanks_eq_forward hstyle]
  cases hread : (c.forward width cs).read? with
  | none => exact absurd (rest_eq_nil_of_read? hread) hne
  | some result =>
    rw [readIndent_of_read? hread, if_pos (by simp [forward, hcolumn])]
    simp [level, canRead, forward, hne, hcolumn]

/-- A line that ends within the margin is skipped. -/
theorem readIndent_blankLine {limit : Nat} (hch : isIndentChar ch = true)
    (hrest : c.rest = List.replicate width ch ++ '\n' :: cs) (hlimit : width < limit)
    (hcolumn : c.column = 1) (hstyle : c.style = some ch) :
    c.readIndent (some limit) = (c.nextLine cs).readIndent (some limit) := by
  have hbefore : ∀ n ∈ some limit, c.column + width ≤ n + 1 := by
    rintro n hn
    obtain rfl := Option.some.inj hn
    omega
  rw [readIndent_blanks hch hrest (fun _ => .inr hstyle) hbefore,
    pastBlanks_eq_forward fun _ => hstyle]
  have hread : (c.forward width ('\n' :: cs)).read? =
      some ('\n', (c.forward width ('\n' :: cs)).nextLine cs) := rfl
  rw [readIndent_of_read? hread, if_neg (by simp [forward, hcolumn]; omega)]
  exact if_pos rfl

end Cursor

namespace Lexer

variable {lx : Lexer} {s : BlockString} {ch : Char} {line raw rest : List Char}

private theorem startsWithQuotes_succ (quotes : Nat) (c : Char) (cs : List Char) :
    startsWithQuotes (quotes + 1) (c :: cs) = (c == '"' && startsWithQuotes quotes cs) := by
  rw [startsWithQuotes, List.take_succ_cons, List.replicate_succ]
  rfl

/-- Where a written line has quotes, the line itself has them. -/
theorem prefix_of_startsWithQuotes {quotes : Nat}
    (h : startsWithQuotes quotes (escape line ++ '\n' :: rest) = true) :
    List.replicate quotes '"' <+: line := by
  induction line generalizing quotes with
  | nil =>
    cases quotes with
    | zero => exact List.nil_prefix
    | succ quotes => simp [startsWithQuotes_succ] at h
  | cons c line ih =>
    cases quotes with
    | zero => exact List.nil_prefix
    | succ quotes =>
      rw [escape, List.flatMap_cons, List.append_assoc] at h
      by_cases hc : c = '"'
      · subst hc
        rw [show escapeChar '"' = ['"'] from rfl, List.singleton_append, startsWithQuotes_succ] at h
        exact List.cons_prefix_cons.mpr ⟨rfl, ih (by simpa [escape] using h)⟩
      · -- An escape starts with a backslash, and every other character stands for itself.
        unfold escapeChar at h
        split_ifs at h <;> simp [startsWithQuotes_succ, hc] at h

/-- A written line is read up to its end. -/
theorem content_line {quotes : Nat} (hpos : 0 < quotes) (hcomment : '#' ∉ line)
    (hquotes : ¬List.replicate quotes '"' <:+: line) (rest : List Char) (column : Nat) :
    content quotes column (escape line ++ '\n' :: rest) =
      .ok (line, column + (escape line).length, '\n' :: rest) := by
  induction line generalizing column with
  | nil =>
    rw [escape_nil, List.nil_append, content_of_ne (by decide)]
    rfl
  | cons c line ih =>
    rw [List.mem_cons, not_or] at hcomment
    have hline := ih hcomment.2 (fun h => hquotes (h.trans (List.suffix_cons c line).isInfix))
      (column + (escapeChar c).length)
    have hstarts : startsWithQuotes quotes (c :: (escape line ++ '\n' :: rest)) = false := by
      rw [Bool.eq_false_iff]
      intro h
      obtain ⟨n, rfl⟩ := Nat.exists_eq_succ_of_ne_zero (Nat.ne_of_gt hpos)
      rw [Nat.succ_eq_add_one, startsWithQuotes_succ, Bool.and_eq_true, beq_iff_eq] at h
      obtain ⟨rfl, hrun⟩ := h
      exact hquotes (List.cons_prefix_cons.mpr ⟨rfl, prefix_of_startsWithQuotes hrun⟩).isInfix
    rw [escape, List.flatMap_cons, List.append_assoc, List.length_append, ← Nat.add_assoc]
    exact content_escapeChar (Ne.symm hcomment.1) hstarts hline

private theorem lineStarts_succ (first count : Nat) :
    lineStarts first (count + 1) = Span.point first 1 :: lineStarts (first + 1) count := by
  simp only [lineStarts, List.range_succ_eq_map, List.map_cons, List.map_map, Nat.add_zero]
  refine congrArg _ (List.map_congr_left fun i _ => ?_)
  simp [Nat.succ_eq_add_one, Nat.add_assoc, Nat.add_comm 1]

/-- Where indentation is read on from the next line, the break of this line is read with the breaks
of the lines below it. -/
theorem blockIndentation_nextLine {c d : Cursor} {level : Nat}
    (hskip : c.readIndent (some s.baseline) = (c.nextLine rest).readIndent (some s.baseline))
    (hread : (c.nextLine rest).readIndent (some s.baseline) = (.ok level, d)) :
    blockIndentation s c =
      let below := blockIndentation { s with pending := some (Span.point c.line 1) }
        (c.nextLine rest)
      (lineBreak s.pending ++ below.1, below.2) := by
  have hline : c.line + 1 ≤ d.line := (Cursor.readIndent_reaches hread).line_le
  obtain ⟨count, hcount⟩ : ∃ count, d.line - c.line = count + 1 :=
    ⟨d.line - c.line - 1, by omega⟩
  have hbelow : d.line - (c.nextLine rest).line = count := by
    simp only [Cursor.nextLine]
    omega
  have hstarts : lineStarts (c.nextLine rest).line count = lineStarts (c.line + 1) count := rfl
  simp only [blockIndentation, hskip, hread, hcount, hbelow, lineStarts_succ, hstarts,
    Option.toList_some, List.singleton_append]
  rw [List.dropLast_append_of_ne_nil (by simp), List.map_append,
    List.getLast?_append_of_ne_nil _ (by simp)]
  split <;> rfl

/-- A step that gives some more tokens first. -/
def prependStep (ts : List Token) : LexerStep → LexerStep
  | .more us next => .more (ts ++ us) next
  | .done us => .done (ts ++ us)
  | .fail us e => .fail (ts ++ us) e

private theorem yields_of_prependStep {mx : Lexer} {ts : List Token}
    (h : lx.step = prependStep ts mx.step) : lx.Yields ts mx := by
  rw [Yields, tokens_eq, tokens_eq mx, h]
  cases mx.step with
  | more us next => simp [prependStep, Listing.prepend]
  | done us => rfl
  | fail us e => rfl

private theorem stepTo_append {mx : Lexer} {ts : List Token} (hlx : lx.lineOpen = true)
    (hmx : mx.lineOpen = true) (hts : ∀ t ∈ ts, t.kind ≠ .lineEnd) (before : List Token)
    (result : Except SyntaxError (List Token × Lexer)) :
    stepTo lx (ts ++ before) result = prependStep ts (stepTo mx before result) := by
  cases result with
  | error e => rfl
  | ok result =>
    obtain ⟨own, next⟩ := result
    simp only [stepTo, prependStep, hlx, hmx, List.append_assoc]
    rw [lineOpenAfter_append, lineOpenAfter_eq_true hts]

/-- The lexer at the start of the next line of a block string, with `rest` left. -/
def blockLine (lx : Lexer) (s : BlockString) (rest : List Char) : Lexer :=
  (lx.moveTo (lx.cursor.nextLine rest)).replaceTop (.blockString s)

/-- The lexer stands at the start of a line of a block string. The margin of the string is made of
copies of `ch`. -/
structure AtBlockLine (ch : Char) (s : BlockString) (lx : Lexer) : Prop where
  mode : lx.mode = .blockString s
  column : lx.cursor.column = 1
  style : 0 < s.baseline → lx.cursor.style = some ch
  lineOpen : lx.lineOpen = true

namespace AtBlockLine

private theorem blockLine (h : AtBlockLine ch s lx) (pending : Option Span) (rest : List Char) :
    AtBlockLine ch { s with pending := pending }
      (lx.blockLine { s with pending := pending } rest) :=
  ⟨rfl, rfl, h.style, h.lineOpen⟩

/-- A step at the start of a line reads the indentation and then the content. -/
theorem step_eq (h : AtBlockLine ch s lx) (hne : lx.cursor.rest ≠ []) :
    lx.step =
      match blockIndentation s lx.cursor with
      | (before, .error e) => .fail before e
      | (before, .ok (s', c)) => stepTo lx before (lx.blockContent s' c) := by
  have hstart : (lx.cursor.atLineStart && lx.cursor.canRead) = true := by
    simp [Cursor.atLineStart, Cursor.canRead, h.column, hne]
  simp only [step, h.mode, blockString, hstart, if_true]
  split <;> simp_all [stepTo]

theorem yields (h : AtBlockLine ch s lx) {before texts : List Token} {next : Lexer}
    (hstep : lx.step = stepTo lx before (.ok (texts, next))) (hnext : next.lineOpen = true)
    (hkinds : ∀ t ∈ before ++ texts, t.kind ≠ .lineEnd) : lx.Yields (before ++ texts) next := by
  refine yields_of_step (hstep.trans ?_)
  rw [stepTo, h.lineOpen, lineOpenAfter_eq_true hkinds, ← hnext]

variable (h : AtBlockLine ch s lx) (hch : Cursor.isIndentChar ch = true)
include h hch

/-- On a line with the whole margin, nothing but the margin is indentation. -/
theorem step_of_margin {cs : List Char}
    (hrest : lx.cursor.rest = List.replicate s.baseline ch ++ cs) (hne : cs ≠ []) :
    lx.step = stepTo lx [] (lx.blockContent s (lx.cursor.forward s.baseline cs)) := by
  have hread := Cursor.readIndent_limit hch hrest hne h.column h.style
  rw [h.step_eq (by simp [hrest, hne])]
  obtain ⟨quotes, baseline, pending, hpos⟩ := s
  have hline : (lx.cursor.forward baseline cs).line - lx.cursor.line = 0 := Nat.sub_self _
  simp only [blockIndentation, hread, hline]
  cases pending <;> simp [lineStarts]

/-- A line gives the break before it and its own text, and leaves its own break waiting. -/
theorem wholeLine (hcomment : '#' ∉ line) (hquotes : ¬List.replicate s.quotes '"' <:+: line)
    (hrest : lx.cursor.rest =
      List.replicate s.baseline ch ++ (escape line ++ '\n' :: rest)) :
    ∃ texts span, TextsOf ((if s.pending.isSome then ['\n'] else []) ++ line) texts ∧
      lx.Yields texts (lx.blockLine { s with pending := some span } rest) := by
  let c := lx.cursor.forward s.baseline (escape line ++ '\n' :: rest)
  let d := c.forward (escape line).length ('\n' :: rest)
  have hcontent : readContent s.quotes c = .ok (line, d) := by
    simp only [readContent]
    rw [show c.rest = escape line ++ '\n' :: rest from rfl,
      content_line s.quotes_pos hcomment hquotes]
    rfl
  have hread : d.read? = some ('\n', d.nextLine rest) := rfl
  have hblock : lx.blockContent s c = .ok (lineBreak s.pending ++ fragment line c d,
      lx.blockLine { s with pending := some d.point } rest) := by
    simp only [blockContent, hcontent]
    rw [show d.rest = '\n' :: rest from rfl]
    simp only [hread]
    rfl
  have htexts := (TextsOf.lineBreak s.pending).append (.fragment line c d)
  refine ⟨_, d.point, htexts, ?_⟩
  have hstep := h.step_of_margin hch hrest (by simp)
  rw [hblock] at hstep
  exact h.yields hstep h.lineOpen fun t ht => by simp [htexts.kinds t ht]

/-- The closing quotes end the string. The break that waits is dropped. -/
theorem close (hrest : lx.cursor.rest =
      List.replicate s.baseline ch ++ (List.replicate s.quotes '"' ++ rest)) :
    ∃ t, t.kind = .stringEnd ∧ lx.Yields [t]
      (lx.pop.after (List.replicate s.baseline ch ++ List.replicate s.quotes '"') rest) := by
  let c := lx.cursor.forward s.baseline (List.replicate s.quotes '"' ++ rest)
  let d := c.forward s.quotes rest
  obtain ⟨n, hn⟩ := Nat.exists_eq_succ_of_ne_zero (Nat.ne_of_gt s.quotes_pos)
  have hhead : List.replicate s.quotes '"' ++ rest = '"' :: (List.replicate n '"' ++ rest) := by
    rw [hn, List.replicate_succ, List.cons_append]
  have hstarts : startsWithQuotes s.quotes (List.replicate s.quotes '"' ++ rest) = true := by
    simp [startsWithQuotes]
  have hcontent : readContent s.quotes c = .ok ([], c) := by
    rw [hhead] at hstarts
    simp only [readContent]
    rw [show c.rest = '"' :: (List.replicate n '"' ++ rest) from hhead,
      content_of_ne (by decide), hstarts, Bool.or_true, if_pos rfl, ← hhead]
    rfl
  have hblock : lx.blockContent s c =
      .ok ([tokenBetween .stringEnd (List.replicate s.quotes '"') c d], (lx.moveTo d).pop) := by
    have hdrop : c.rest.drop s.quotes = rest := by simp [c, Cursor.forward]
    simp only [blockContent, hcontent, hdrop]
    rw [show c.rest = '"' :: (List.replicate n '"' ++ rest) from hhead]
    rfl
  refine ⟨tokenBetween .stringEnd (List.replicate s.quotes '"') c d, rfl, ?_⟩
  have hstep := h.step_of_margin hch hrest (by simp [hhead])
  rw [hblock] at hstep
  have hnext : (lx.moveTo d).pop =
      lx.pop.after (List.replicate s.baseline ch ++ List.replicate s.quotes '"') rest := by
    simp [after, moveTo, pop, d, c, Cursor.forward, Nat.add_assoc]
  rw [hnext] at hstep
  exact h.yields hstep h.lineOpen (by simp)

omit hch in
/-- Where indentation is read on from the next line, the break before this line is given, and the
break of this line waits. -/
theorem skipsLine {level : Nat} {d : Cursor} (hne : lx.cursor.rest ≠ []) (hrest : rest ≠ [])
    (hskip : lx.cursor.readIndent (some s.baseline) =
      (lx.cursor.nextLine rest).readIndent (some s.baseline))
    (hread : (lx.cursor.nextLine rest).readIndent (some s.baseline) = (.ok level, d)) :
    ∃ span, lx.Yields (lineBreak s.pending)
      (lx.blockLine { s with pending := some span } rest) := by
  have hbelow := h.blockLine (some (Span.point lx.cursor.line 1)) rest
  have hindent := blockIndentation_nextLine hskip hread
  refine ⟨Span.point lx.cursor.line 1, ?_⟩
  generalize Span.point lx.cursor.line 1 = span at hbelow hindent ⊢
  have hcursor : (lx.blockLine { s with pending := some span } rest).cursor =
      lx.cursor.nextLine rest := rfl
  refine yields_of_prependStep ?_
  rw [h.step_eq hne, hbelow.step_eq hrest, hcursor, hindent]
  rcases blockIndentation { s with pending := some span } (lx.cursor.nextLine rest) with
    ⟨before, e | ⟨s', c⟩⟩
  · rfl
  · exact stepTo_append h.lineOpen hbelow.lineOpen
      (fun t ht => by simp [(TextsOf.lineBreak s.pending).kinds t ht]) before _

/-- A written line gives the break before it and its text, and leaves its own break waiting. -/
theorem writtenLine (hraw : WrittenLine (List.replicate s.baseline ch) line raw)
    (hcomment : '#' ∉ line) (hquotes : ¬List.replicate s.quotes '"' <:+: line)
    (hrest : lx.cursor.rest = raw ++ '\n' :: rest) (hne : rest ≠ [])
    (hread : ∃ level d,
      (lx.cursor.nextLine rest).readIndent (some s.baseline) = (.ok level, d)) :
    ∃ texts span, TextsOf ((if s.pending.isSome then ['\n'] else []) ++ line) texts ∧
      lx.Yields texts (lx.blockLine { s with pending := some span } rest) := by
  cases hraw with
  | whole =>
    rw [List.append_assoc] at hrest
    exact h.wholeLine hch hcomment hquotes hrest
  | blank hblanks =>
    obtain ⟨hle, hraw⟩ := List.prefix_replicate_iff.mp hblanks
    rw [hraw] at hrest
    rcases Nat.lt_or_eq_of_le hle with hlt | heq
    · obtain ⟨level, d, hread⟩ := hread
      have hskip := Cursor.readIndent_blankLine hch hrest hlt h.column (h.style (by omega))
      obtain ⟨span, hyields⟩ := h.skipsLine (by simp [hrest]) hne hskip hread
      exact ⟨_, span, by simpa using TextsOf.lineBreak s.pending, hyields⟩
    · -- The margin is there as a whole.
      rw [heq] at hrest
      exact h.wholeLine hch hcomment hquotes hrest

end AtBlockLine

/-- The lexer is past a string, with `rest` left on the line. -/
structure PastString (lx next : Lexer) (rest : List Char) : Prop where
  rest : next.cursor.rest = rest
  column : 1 < next.cursor.column
  style : next.cursor.style = lx.cursor.style
  modes : next.modes = lx.modes.tail
  indents : next.indents = lx.indents
  lineOpen : next.lineOpen = true

section Written

variable {width : Nat} {ls raws : List (List Char)} {tail : List Char}

/-- In front of written lines and the end of the string, the indentation can be read. -/
theorem exists_readIndent (hch : Cursor.isIndentChar ch = true)
    (hlines : List.Forall₂ (WrittenLine (List.replicate width ch)) ls raws) {c : Cursor}
    (hrest : c.rest = raws.flatMap (· ++ ['\n']) ++ (List.replicate width ch ++ tail))
    (htail : tail ≠ []) (hcolumn : c.column = 1) (hstyle : 0 < width → c.style = some ch) :
    ∃ level d, c.readIndent (some width) = (.ok level, d) := by
  induction hlines generalizing c with
  | nil => exact ⟨_, _, Cursor.readIndent_limit hch hrest htail hcolumn hstyle⟩
  | @cons line raw ls raws hraw _ ih =>
    rw [List.flatMap_cons, List.append_assoc, List.append_assoc, List.singleton_append] at hrest
    cases hraw with
    | whole =>
      rw [List.append_assoc] at hrest
      exact ⟨_, _, Cursor.readIndent_limit hch hrest (by simp) hcolumn hstyle⟩
    | blank hblanks =>
      obtain ⟨hle, hraw⟩ := List.prefix_replicate_iff.mp hblanks
      rw [hraw] at hrest
      rcases Nat.lt_or_eq_of_le hle with hlt | heq
      · rw [Cursor.readIndent_blankLine hch hrest hlt hcolumn (hstyle (by omega))]
        exact ih rfl rfl hstyle
      · rw [heq] at hrest
        exact ⟨_, _, Cursor.readIndent_limit hch hrest (by simp) hcolumn hstyle⟩

/-- A written text is read up to the end of its string. -/
theorem AtBlockLine.blockText (h : AtBlockLine ch s lx) (hch : Cursor.isIndentChar ch = true)
    (hlines : List.Forall₂ (WrittenLine (List.replicate s.baseline ch)) ls raws)
    (hplain : ∀ line ∈ ls, '#' ∉ line ∧ ¬List.replicate s.quotes '"' <:+: line)
    (hrest : lx.cursor.rest = raws.flatMap (· ++ ['\n']) ++
      (List.replicate s.baseline ch ++ (List.replicate s.quotes '"' ++ tail))) :
    ∃ texts t next, TextsOf (joined s.pending.isSome ls) texts ∧ t.kind = .stringEnd ∧
      lx.Yields (texts ++ [t]) next ∧ PastString lx next tail := by
  obtain ⟨quotes, width, pending, hpos⟩ := s
  dsimp only at hlines hplain hrest
  have hclose : List.replicate quotes '"' ++ tail ≠ [] := by
    simp only [ne_eq, List.append_eq_nil_iff, List.replicate_eq_nil_iff]
    omega
  -- The induction is on the lines; from the second one on, a break waits.
  induction hlines generalizing lx pending with
  | nil =>
    obtain ⟨t, ht, hyields⟩ := h.close hch hrest
    refine ⟨[], t, _, .nil, ht, hyields, rfl, ?_, rfl, rfl, rfl, h.lineOpen⟩
    simp only [after, pop, moveTo, Cursor.forward, h.column, List.length_append,
      List.length_replicate]
    omega
  | @cons line raw ls raws hraw hlines ih =>
    rw [List.flatMap_cons, List.append_assoc, List.append_assoc, List.singleton_append] at hrest
    obtain ⟨hline, hplain⟩ := List.forall_mem_cons.mp hplain
    obtain ⟨texts, span, htexts, hyields⟩ := h.writtenLine hch hraw hline.1 hline.2 hrest
      (by simp [hclose]) (exists_readIndent hch hlines rfl hclose rfl h.style)
    obtain ⟨more, t, next, hmore, ht, hyields', hnext⟩ :=
      ih (some span) (h.blockLine (some span) _) hplain rfl
    refine ⟨texts ++ more, t, next, htexts.append hmore, ht, ?_, ?_⟩
    · rw [List.append_assoc]
      exact hyields.trans hyields'
    · exact ⟨hnext.rest, hnext.column, hnext.style, hnext.modes, hnext.indents, hnext.lineOpen⟩

end Written

/-! ### The line of the string -/

private theorem step_ne_fail (hfault : lx.tokens.fault = none) (ts : List Token) (e : SyntaxError) :
    lx.step ≠ .fail ts e := by
  intro hstep
  rw [tokens_eq, hstep] at hfault
  cases hfault

/-- In a text with tokens, the margin of a line is made of the blank that indents all lines. -/
theorem style_of_fault {width : Nat} {cs : List Char} (hch : Cursor.isIndentChar ch = true)
    (hmode : lx.mode = .code) (hcolumn : lx.cursor.column = 1)
    (hrest : lx.cursor.rest = List.replicate width ch ++ cs)
    (hfault : lx.tokens.fault = none) (hwidth : 0 < width) :
    lx.cursor.style = none ∨ lx.cursor.style = some ch := by
  obtain ⟨n, rfl⟩ := Nat.exists_eq_succ_of_ne_zero (Nat.ne_of_gt hwidth)
  rw [List.replicate_succ, List.cons_append] at hrest
  cases hstyle : lx.cursor.style with
  | none => exact .inl rfl
  | some x =>
    by_cases hx : ch = x
    · exact .inr (congrArg some hx.symm)
    have hink : ch ≠ '\n' ∧ ch ≠ '#' := by
      constructor <;> rintro rfl <;> exact absurd hch (by decide)
    have hread : lx.cursor.read? = some (ch, lx.cursor.forward 1 (List.replicate n ch ++ cs)) := by
      simp [Cursor.read?, hrest, hink]
    have hindent : lx.cursor.readIndent none =
        (.error ⟨.mixedIndentation x ch, lx.cursor.point⟩, lx.cursor) := by
      rw [Cursor.readIndent_of_read? hread]
      simp [Cursor.atLineEnd, Cursor.peek, hrest, hink, hch, hstyle, hx]
    have hstep : lx.step = .fail [] ⟨.mixedIndentation x ch, lx.cursor.point⟩ := by
      simp [step, hmode, Cursor.atLineStart, hcolumn, Cursor.canRead, hrest, lineIndentation,
        hindent]
    exact absurd hstep (step_ne_fail hfault _ _)

private theorem before_of_nil (hrest : lx.cursor.rest = []) (more : List Char) :
    (lx.before more).cursor.rest = more := by
  change lx.cursor.rest ++ more = more
  rw [hrest, List.nil_append]

namespace LineStart

variable {base : Lexer} {width : Nat} (h : LineStart base)
include h

theorem mode_eq (more : List Char) : (base.before more).mode = .code := by
  rw [mode_before, mode, h.modes]
  rfl

private theorem column_eq (more : List Char) : (base.before more).cursor.column = 1 := h.column

/-- The margin of a line depends on the line by its width alone. -/
theorem exists_margin (hch : Cursor.isIndentChar ch = true) {cs : List Char} (hcs : StartsInk cs)
    (hfault : (base.before (List.replicate width ch ++ cs)).tokens.fault = none) :
    ∃ margin indents, (∀ t ∈ margin, t.kind = .indent ∨ t.kind = .dedent) ∧
      indents.headD 0 = width ∧ ∀ ds, StartsInk ds →
        (base.before (List.replicate width ch ++ ds)).lineIndentation =
          (margin, .ok { base with
            cursor := (base.cursor.pastBlanks ch width []).before ds, indents := indents }) := by
  have hrest := before_of_nil h.rest
  have hstyle := style_of_fault hch (h.mode_eq _) h.column (hrest _) hfault
  have hindent : ∀ ds, StartsInk ds →
      (base.before (List.replicate width ch ++ ds)).cursor.readIndent none =
        (.ok width, (base.cursor.pastBlanks ch width []).before ds) := by
    intro ds hds
    rw [readIndent_margin hch (hrest _) hds hstyle (Nat.le_of_eq h.column.symm),
      h.column_eq, Nat.sub_self, Nat.zero_add]
    rfl
  have hread : ∀ ds, StartsInk ds →
      ((base.cursor.pastBlanks ch width []).before ds).canRead = true := by
    intro ds hds
    simp [Cursor.canRead, Cursor.before, hds.ne_nil]
  have hindentation : ∀ more, (base.before more).indentation = base.indentation := fun _ => rfl
  by_cases hwide : base.indentation < width
  · refine ⟨[⟨.indent, "", base.cursor.line, base.indentation + 1, width + 1⟩],
      width :: base.indents, by simp, rfl, fun ds hds => ?_⟩
    simp only [lineIndentation, hindent ds hds, hread ds hds, hindentation, if_pos hwide]
    rfl
  by_cases hopen : (base.indents.dropWhile (width < ·)).headD 0 = width
  · refine ⟨(base.indents.takeWhile (width < ·)).map fun _ =>
        Token.atSpan .dedent "" (Span.point base.cursor.line (width + 1)),
      base.indents.dropWhile (width < ·), ?_, hopen, fun ds hds => ?_⟩
    · intro t ht
      obtain ⟨_, -, rfl⟩ := List.mem_map.mp ht
      exact .inr rfl
    · simp only [lineIndentation, hindent ds hds, hread ds hds, hindentation, if_neg hwide]
      exact if_pos hopen
  · -- The line would close blocks that are not there.
    have hstart : ((base.before (List.replicate width ch ++ cs)).cursor.atLineStart &&
        (base.before (List.replicate width ch ++ cs)).cursor.canRead) = true := by
      simp [Cursor.atLineStart, Cursor.canRead, hrest, hcs.ne_nil, h.column_eq]
    obtain ⟨ts, e, hmargin⟩ : ∃ ts e,
        (base.before (List.replicate width ch ++ cs)).lineIndentation = (ts, .error e) := by
      simp only [lineIndentation, hindent cs hcs, hread cs hcs, hindentation, if_neg hwide]
      exact ⟨_, _, if_neg hopen⟩
    refine absurd ?_ (step_ne_fail hfault ts e)
    simp only [step, h.mode_eq, hstart, if_true, hmargin]

/-- An output starts alike whatever its value is. -/
theorem exists_output (hch : Cursor.isIndentChar ch = true) {cs : List Char}
    (hfault : (base.before (List.replicate width ch ++ ('<' :: '<' :: ' ' :: cs))).tokens.fault =
      none) :
    ∃ margin o mid, o.kind = .sign .output ∧ o.line = (base.cursor.line : Int) ∧
      mid.modes = [.code] ∧ mid.indentation = width ∧
      (0 < width → mid.cursor.style = some ch) ∧ MidLine mid ∧ mid.cursor.rest = [] ∧
      ∀ ds, ds ≠ [] →
        (base.before (List.replicate width ch ++ ('<' :: '<' :: ' ' :: ds))).Yields
          (margin ++ [o]) (mid.before ds) := by
  have hink : ∀ ds, StartsInk ('<' :: '<' :: ' ' :: ds) := fun ds =>
    ⟨'<', _, rfl, by decide, by decide, by decide⟩
  obtain ⟨margin, indents, hkinds, hwidth, hmargin⟩ := h.exists_margin hch (hink cs) hfault
  let past := base.cursor.pastBlanks ch width []
  let o : Token := ⟨.sign .output, "<<", base.cursor.line, past.column, past.column + 2⟩
  refine ⟨margin, o,
    { base with cursor := past.forward 3 [], indents := indents, lineOpen := true }, rfl, rfl,
    h.modes, hwidth, ?_, ⟨rfl, ?_⟩, rfl, fun ds hds => ?_⟩
  · intro hpos
    exact if_neg (Nat.ne_of_gt hpos)
  · simp only [past, Cursor.pastBlanks, Cursor.forward, h.column]
    omega
  · have hread : (base.before (List.replicate width ch ++ ('<' :: '<' :: ' ' :: ds))).cursor.canRead
        = true := by
      simp [before, Cursor.before, Cursor.canRead]
    have hlexeme : IsLexeme ['<', '<'] (' ' :: ds) (.sign .output) := isLexeme_sign .output rfl
    have hfirst := yields_of_lineIndentation (h.mode_eq _) (h.column_eq _) hread
      (hmargin _ (hink ds)) hkinds hlexeme rfl
    have hblank := hfirst.trans (yields_blank ⟨⟨rfl, ?_⟩, ?_⟩ rfl hds)
    · rw [List.append_nil] at hblank
      exact hblank
    · simp only [after, moveTo, Cursor.forward, Cursor.before, Cursor.pastBlanks, h.column,
        List.length_cons, List.length_nil]
      omega
    · simp [Lexer.mode, after, moveTo, h.modes, Mode.isString]

end LineStart

/-- A zero before the end of the line is read as an integer. -/
theorem yields_zero (hlx : lx.InCode) (hrest : lx.cursor.rest = '0' :: rest)
    (hend : ∀ x ∈ rest.head?, x = '\n') :
    ∃ t, t.kind = .integer ∧ lx.Yields [t] (lx.after ['0'] rest) := by
  have hdigits : Numeral.IsDigits ['0'] := Numeral.isDigits_singleton rfl
  have hnext : ∀ x, rest.head? = some x → isAsciiDigit x = false := by
    intro x hx
    rw [hend x hx]
    decide
  obtain ⟨htake, hdrop⟩ := takeWhile_run hdigits.2 hnext
  have hnumber : number lx.cursor = .ok (tokenBetween .integer ['0'] lx.cursor
      (lx.after ['0'] rest).cursor, (lx.after ['0'] rest).cursor) := by
    rw [List.singleton_append, ← hrest] at htake hdrop
    simp only [number, Cursor.takeWhile, htake, hdrop]
    split
    · rename_i more hmore
      have hpoint : rest = '.' :: more := hmore
      have := hend '.' (by rw [hpoint]; rfl)
      cases this
    · rfl
  have hcode := code_of_digits hdigits hrest hnumber
  exact ⟨_, rfl, yields_of_code hlx (by simp [hrest]) hcode hlx.lineOpen (by simp)⟩

/-- Three or more quotes at the end of a line start a block string on the next line. -/
theorem yields_blockStart (hlx : lx.InCode) (hhole : .hole ∉ lx.modes) {quotes : Nat}
    (hquotes : 2 < quotes)
    (hrest : lx.cursor.rest = List.replicate quotes '"' ++ '\n' :: rest) :
    ∃ t, t.kind = .stringStart ∧ lx.Yields [t] ((lx.moveTo (lx.cursor.nextLine rest)).push
      (.blockString ⟨quotes, lx.indentation, none, by omega⟩)) := by
  have hhead : lx.cursor.rest = '"' :: (List.replicate (quotes - 1) '"' ++ '\n' :: rest) := by
    rw [hrest, ← List.cons_append, ← List.replicate_succ, Nat.sub_add_cancel (by omega)]
  have hall : ∀ c ∈ List.replicate quotes '"', (c == '"') = true := by simp
  have hstop : ∀ c, ('\n' :: rest).head? = some c → (c == '"') = false := by simp
  obtain ⟨htake, hdrop⟩ := takeWhile_run hall hstop
  rw [← hrest] at htake hdrop
  have hrun : quoteRun lx.cursor = (List.replicate quotes '"',
      lx.cursor.forward quotes ('\n' :: rest)) := by
    simp only [quoteRun, Cursor.takeWhile, htake, hdrop, List.length_replicate]
  have hskip : skipLineEnd (lx.cursor.forward quotes ('\n' :: rest)) =
      lx.cursor.nextLine rest := rfl
  have hcode : lx.code = .ok ([tokenBetween .stringStart (List.replicate quotes '"') lx.cursor
      (lx.cursor.forward quotes ('\n' :: rest))],
      (lx.moveTo (lx.cursor.nextLine rest)).push
        (.blockString ⟨quotes, lx.indentation, none, by omega⟩)) := by
    rw [code_of_quote hhead]
    simp [openString, hrun, hskip, hquotes, hhole]
  exact ⟨_, rfl, yields_of_code hlx (by simp [hrest]) hcode hlx.lineOpen (by simp)⟩

/-- A line that is open is closed by its end or by the end of the source. -/
theorem exists_lineEnd (hlx : lx.InCode) (hmode : lx.mode = .code)
    (hend : ∀ x ∈ lx.cursor.rest.head?, x = '\n') :
    ∃ t more, lx.tokens.items = t :: more ∧ t.kind = .lineEnd := by
  cases hrest : lx.cursor.rest with
  | nil =>
    rw [tokens_of_nil hmode hrest, if_pos hlx.lineOpen]
    exact ⟨_, _, rfl, rfl⟩
  | cons x rest =>
    obtain rfl := hend x (by rw [hrest]; rfl)
    rw [yields_lineEnd hlx hmode hrest]
    exact ⟨_, _, rfl, rfl⟩

/-- A text goes on from the lines above. -/
theorem ofText_eq_before {text₀ text : String} {above below : List (List Char)}
    (habove : lines text₀.toList = above ++ [[]]) (htext : lines text.toList = above ++ below)
    (hne : below ≠ []) : ofText text = (ofText text₀).before (['\n'].intercalate below) := by
  have hrest : normalizeBreaks text.toList =
      normalizeBreaks text₀.toList ++ ['\n'].intercalate below := by
    rw [← intercalate_splitBreaks (normalizeBreaks text.toList),
      ← intercalate_splitBreaks (normalizeBreaks text₀.toList), ← lines, ← lines, htext, habove,
      intercalate_append_lines above hne]
  rw [ofText, Cursor.ofText, hrest]
  rfl

section Replacement

/-- Two listings are the same but for an output: it is the output of a literal in the first one
and of a text in the other one, up to the end of its line. -/
inductive SameButText (cs : List Char) (line : Int) :
    Listing Token SyntaxError → Listing Token SyntaxError → Prop
  | intro {before texts rest more : List Token} {o zero start stop last : Token}
      (ho : o.kind = .sign .output) (hline : o.line = line) (hzero : zero.kind = .integer)
      (hstart : start.kind = .stringStart) (htexts : TextsOf cs texts)
      (hstop : stop.kind = .stringEnd) (hlast : last.kind = .lineEnd)
      (hrest : SameLexemes rest (last :: more)) :
      SameButText cs line ⟨before ++ o :: zero :: rest, none⟩
        ⟨before ++ o :: (start :: texts ++ stop :: last :: more), none⟩

theorem SameButText.prepend {cs : List Char} {line : Int} {l l' : Listing Token SyntaxError}
    (h : SameButText cs line l l') (acc : List Token) :
    SameButText cs line (l.prepend acc) (l'.prepend acc) := by
  obtain @⟨before, _, _, _, _, _, _, _, _, ho, hline, hzero, hstart, htexts, hstop, hlast,
    hrest⟩ := h
  rw [Listing.prepend, Listing.prepend, ← List.append_assoc, ← List.append_assoc]
  exact .intro ho hline hzero hstart htexts hstop hlast hrest

variable {width quotes : Nat} {ls raws : List (List Char)} {tail : List Char}

/-- A literal and a block string leave the lexer in the same state but for the line. -/
theorem LineStart.blockText {base : Lexer} (h : LineStart base)
    (hch : Cursor.isIndentChar ch = true) (htail : ∀ x ∈ tail.head?, x = '\n')
    (hfault : (base.before
      (List.replicate width ch ++ ('<' :: '<' :: ' ' :: '0' :: tail))).tokens.fault = none)
    (hquotes : 2 < quotes) (hlines : List.Forall₂ (WrittenLine (List.replicate width ch)) ls raws)
    (hplain : ∀ line ∈ ls, '#' ∉ line ∧ ¬List.replicate quotes '"' <:+: line) :
    SameButText (joined false ls) base.cursor.line
      (base.before (List.replicate width ch ++ ('<' :: '<' :: ' ' :: '0' :: tail))).tokens
      (base.before (List.replicate width ch ++ ('<' :: '<' :: ' ' ::
        (List.replicate quotes '"' ++ '\n' :: (raws.flatMap (· ++ ['\n']) ++
          (List.replicate width ch ++ (List.replicate quotes '"' ++ tail))))))).tokens := by
  obtain ⟨margin, o, mid, ho, holine, hmodes, hwidth, hstyle, hmid, hnil, hyields⟩ :=
    h.exists_output hch hfault
  subst hwidth
  have hmode : mid.mode = .code := by
    rw [mode, hmodes]
    rfl
  have hcode : ∀ more, (mid.before more).InCode := fun more =>
    ⟨⟨hmid.lineOpen, hmid.column⟩, by rw [mode_before, hmode]; rfl⟩
  have hrest := before_of_nil hnil
  -- The literal.
  obtain ⟨zero, hzero, hlit⟩ := yields_zero (hcode ('0' :: tail)) (hrest _) htail
  have hlit' := (hyields _ (by simp)).trans hlit
  -- The block string.
  let body := raws.flatMap (· ++ ['\n']) ++
    (List.replicate mid.indentation ch ++ (List.replicate quotes '"' ++ tail))
  let opening := mid.before (List.replicate quotes '"' ++ '\n' :: body)
  obtain ⟨start, hstart, hopen⟩ :=
    yields_blockStart (hcode _) (by simp [before, hmodes]) hquotes (hrest _)
  have hbegin : AtBlockLine ch ⟨quotes, mid.indentation, none, by omega⟩
      ((opening.moveTo (opening.cursor.nextLine body)).push
        (.blockString ⟨quotes, mid.indentation, none, by omega⟩)) :=
    ⟨rfl, rfl, hstyle, hmid.lineOpen⟩
  obtain ⟨texts, stop, next, htexts, hstop, hstring, hnext⟩ :=
    hbegin.blockText hch hlines hplain rfl
  have hblock := ((hyields _ (by simp)).trans hopen).trans hstring
  -- What follows them.
  have hpast := (hcode ('0' :: tail)).after ['0'] tail
  have hmodes' : next.modes = [.code] := hnext.modes.trans hmodes
  have hbeside : movedDown.Beside ((mid.before ('0' :: tail)).after ['0'] tail) next := by
    refine .within ⟨⟨?_, .inr ⟨hpast.column, hnext.column⟩, hnext.style.symm⟩, ?_,
      hnext.indents.trans (List.map_id _).symm, hnext.lineOpen.trans hmid.lineOpen.symm⟩
      hpast.column
    · rw [hnext.rest]
      exact .refl (fun _ => rfl) tail
    · rw [hmodes', show ((mid.before ('0' :: tail)).after ['0'] tail).modes = [.code] from hmodes]
      exact .cons .code .nil
  obtain ⟨hsame, hfaults⟩ := hbeside.tokens sound_movedDown (.inl keepsBlocks_movedDown)
  have hnextCode : next.InCode :=
    ⟨⟨hnext.lineOpen, hnext.column⟩, by simp [Lexer.mode, hmodes', Mode.isString]⟩
  obtain ⟨last, more, hitems, hlast⟩ := exists_lineEnd hnextCode (by simp [Lexer.mode, hmodes'])
    (by rwa [hnext.rest])
  rw [hlit', Listing.fault_prepend] at hfault
  have hfault' : next.tokens.fault = none := by simpa [hfault] using hfaults
  rw [hitems] at hsame
  rw [hlit', hblock, Listing.prepend, Listing.prepend, hfault, hfault', hitems]
  simpa using SameButText.intro ho holine hzero hstart htexts hstop hlast hsame

end Replacement

end Lexer

/-- A block string in the place of a literal: the tokens are the same but for the string, and the
string holds the text that was written. -/
theorem tokensOf_blockText {text₀ text text' : String} {above below raws : List (List Char)}
    {ch : Char} {width quotes : Nat} {cs : List Char} (hch : Cursor.isIndentChar ch = true)
    (habove : lines text₀.toList = above ++ [[]]) (hfault₀ : (tokensOf text₀).fault = none)
    (htext : lines text.toList =
      above ++ (List.replicate width ch ++ ['<', '<', ' ', '0']) :: below)
    (hfault : (tokensOf text).fault = none) (hquotes : 2 < quotes) (hcomment : '#' ∉ cs)
    (hrun : ¬List.replicate quotes '"' <:+: cs)
    (hraws : List.Forall₂ (WrittenLine (List.replicate width ch)) (splitBreaks cs) raws)
    (htext' : lines text'.toList =
      above ++ (List.replicate width ch ++ '<' :: '<' :: ' ' :: List.replicate quotes '"') ::
        (raws ++ (List.replicate width ch ++ List.replicate quotes '"') :: below)) :
    Lexer.SameButText cs (above.length + 1) (tokensOf text) (tokensOf text') := by
  have hlit : ['\n'].intercalate ((List.replicate width ch ++ ['<', '<', ' ', '0']) :: below) =
      List.replicate width ch ++ ('<' :: '<' :: ' ' :: '0' :: joined true below) := by
    rw [← joined_false]
    simp [joined]
  have hblock : ['\n'].intercalate
      ((List.replicate width ch ++ '<' :: '<' :: ' ' :: List.replicate quotes '"') ::
        (raws ++ (List.replicate width ch ++ List.replicate quotes '"') :: below)) =
      List.replicate width ch ++ ('<' :: '<' :: ' ' :: (List.replicate quotes '"' ++ '\n' ::
        (raws.flatMap (· ++ ['\n']) ++
          (List.replicate width ch ++ (List.replicate quotes '"' ++ joined true below))))) := by
    rw [← joined_false, joined, joined_append]
    simp
  obtain ⟨acc, base, hbase, hline, htokens⟩ := exists_lineStart habove hfault₀
  have hfrom {text below} (h : lines text.toList = above ++ below) (hne : below ≠ [])
      (hmore : ['\n'].intercalate below ≠ []) :
      tokensOf text = (base.before (['\n'].intercalate below)).tokens.prepend acc := by
    rw [tokensOf, ofText_eq_before habove h hne, htokens _ hmore]
  have hlit' := hfrom htext (by simp) (by simp [hlit])
  have hblock' := hfrom htext' (by simp) (by simp [hblock])
  rw [hlit] at hlit'
  rw [hblock] at hblock'
  have hplain : ∀ line ∈ splitBreaks cs, '#' ∉ line ∧ ¬List.replicate quotes '"' <:+: line := by
    intro line hline
    have hpart := (infix_of_mem_splitBreaks hline).2
    exact ⟨fun hmem => hcomment (hpart.subset hmem), fun h => hrun (h.trans hpart)⟩
  rw [hlit', Listing.fault_prepend] at hfault
  have hsame := hbase.blockText hch (head?_joined below) hfault hquotes hraws hplain
  rw [joined_false, intercalate_splitBreaks, hline] at hsame
  rw [hlit', hblock']
  simpa using hsame.prepend acc

end DialogScript
