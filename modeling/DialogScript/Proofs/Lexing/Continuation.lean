import DialogScript.Proofs.Lexing.Layout
import Mathlib.Data.List.TakeWhile

/-!
# Text that goes on

A script can be read while it is still being written. `c.before more` is a cursor in the same
place of a text that goes on with `more`. Nothing that the lexer reads within a line depends on
what follows the line, so a step that goes on makes the same move in the longer text
(`step_before`). At the end of a text that ends in a line break the lexer stands between two
lines: the longer text has all complete lines of the shorter one in front (`keepsLines_append`),
and only the blocks that the end of the source closes are missing.
-/

namespace DialogScript

namespace Text

/-- More text leaves the lines before it as they are; a line feed may only complete the carriage
return before it. -/
theorem normalizeBreaks_append (cs more : List Char) :
    ∃ rest, normalizeBreaks (cs ++ more) = normalizeBreaks cs ++ rest := by
  fun_induction normalizeBreaks cs with
  | case1 => exact ⟨_, rfl⟩
  | case2 rest ih =>
    obtain ⟨last, ih⟩ := ih
    exact ⟨last, by simp [normalizeBreaks, ih]⟩
  | case3 c rest hpair ih =>
    obtain ⟨last, ih⟩ := ih
    by_cases hsplit : ∃ more', c = '\r' ∧ rest ++ more = '\n' :: more'
    · -- The pair is cut in two: only the carriage return stands before the cut.
      obtain ⟨more', rfl, hmore⟩ := hsplit
      obtain rfl : rest = [] := by
        cases rest with
        | nil => rfl
        | cons d rest =>
          obtain ⟨rfl, -⟩ := List.cons.inj hmore
          exact absurd rfl (hpair rest rfl)
      refine ⟨normalizeBreaks more', ?_⟩
      rw [List.nil_append] at hmore
      simp [hmore, normalizeBreaks, isBreak]
    · refine ⟨last, ?_⟩
      rw [List.cons_append, normalizeBreaks, ih, List.cons_append]
      exact fun more' hc hmore => hsplit ⟨more', hc, hmore⟩

/-- A text that ends in a line break ends in a line feed once its breaks are written alike. -/
theorem getLast?_normalizeBreaks {cs : List Char} {x : Char} (h : cs.getLast? = some x)
    (hx : isBreak x = true) : (normalizeBreaks cs).getLast? = some '\n' := by
  fun_induction normalizeBreaks cs with
  | case1 => cases h
  | case2 rest ih =>
    cases rest with
    | nil => rfl
    | cons d rest =>
      have hlast := ih (by simpa using h)
      simp [List.getLast?_cons, hlast]
  | case3 c rest hpair ih =>
    cases rest with
    | nil =>
      obtain rfl : c = x := by simpa using h
      simp [normalizeBreaks, hx]
    | cons d rest =>
      have hlast := ih (by simpa using h)
      simp [List.getLast?_cons, hlast]

end Text

open Text

namespace Cursor

variable {c d : Cursor} {cs : List Char}

/-- The cursor in the same place of a text that goes on. -/
def before (more : List Char) (c : Cursor) : Cursor := { c with rest := c.rest ++ more }

/-- Every line of the text that is left ends in a line break. -/
structure EndsLine (c : Cursor) : Prop where
  rest : ∀ x ∈ c.rest.getLast?, x = '\n'
  column : c.rest = [] → c.column = 1

private theorem endsLine_ofText {text : String} {x : Char} (h : text.toList.getLast? = some x)
    (hx : isBreak x = true) : (ofText text).EndsLine where
  rest := by
    intro y hy
    rw [ofText, getLast?_normalizeBreaks h hx] at hy
    exact (Option.some.inj hy).symm
  column := fun _ => rfl

namespace EndsLine

private theorem break_mem (h : c.EndsLine) (hcan : c.canRead = true) : '\n' ∈ c.rest := by
  have hne : c.rest ≠ [] := by simpa [canRead] using hcan
  have hlast := h.rest _ (List.getLast?_eq_some_getLast hne)
  exact hlast ▸ List.getLast_mem hne

theorem break_mem_of_lt {n : Nat} (h : c.EndsLine) (hlt : n < c.remaining) : '\n' ∈ c.rest := by
  refine h.break_mem ?_
  have hne : c.rest ≠ [] := List.length_pos_iff.mp (Nat.zero_lt_of_lt hlt)
  simpa [canRead] using hne

theorem passes (h : c.EndsLine) (hpasses : c.Passes cs d) : d.EndsLine where
  rest := by
    intro x hx
    refine h.rest x ?_
    rw [hpasses.rest, List.getLast?_append, hx]
    rfl
  column := by
    intro hnil
    have hrest : c.rest = cs := by rw [hpasses.rest, hnil, List.append_nil]
    by_cases hcs : cs = []
    · rw [hpasses.column, hcs]
      exact h.column (hrest.trans hcs)
    · -- The last character passed would be the line break that ends the text.
      have hlast := h.rest (cs.getLast hcs) (by rw [hrest, List.getLast?_eq_some_getLast hcs]; rfl)
      exact absurd (hlast ▸ List.getLast_mem hcs) hpasses.sameLine

theorem read? {ch : Char} (h : c.EndsLine) (hend : c.atLineEnd = true)
    (hread : c.read? = some (ch, d)) : d.EndsLine where
  rest := by
    intro x hx
    obtain ⟨skipped, hskipped⟩ := rest_suffix_of_read? hread
    refine h.rest x ?_
    rw [← hskipped, List.getLast?_append, hx]
    rfl
  column := fun _ => (nextLine_of_read? hend hread).2

theorem reaches (h : c.EndsLine) (hreach : c.Reaches d) : d.EndsLine := by
  induction hreach with
  | refl => exact h
  | passes hpasses _ ih => exact ih (h.passes hpasses)
  | lineEnd hend hread _ ih => exact ih (h.read? hend hread)
  | styled _ ih => exact ih ⟨h.rest, h.column⟩

end EndsLine

/-! ### Reading within a line -/

variable (more : List Char)

private theorem Passes.break_mem (h : c.Passes cs d) (hbreak : '\n' ∈ c.rest) : '\n' ∈ d.rest := by
  rw [h.rest] at hbreak
  exact (List.mem_append.mp hbreak).resolve_left h.sameLine

/-- A cursor with a line break ahead has a character to read. -/
theorem exists_rest_eq_cons (hbreak : '\n' ∈ c.rest) : ∃ ch rest, c.rest = ch :: rest :=
  List.exists_cons_of_ne_nil (List.ne_nil_of_mem hbreak)

private theorem exists_read?_eq_some (hbreak : '\n' ∈ c.rest) : ∃ ch d, c.read? = some (ch, d) := by
  cases hread : c.read? with
  | some result => exact ⟨result.1, result.2, rfl⟩
  | none =>
    rw [rest_eq_nil_of_read? hread] at hbreak
    cases hbreak

theorem atLineEnd_before (hbreak : '\n' ∈ c.rest) : (c.before more).atLineEnd = c.atLineEnd := by
  obtain ⟨ch, rest, hrest⟩ := exists_rest_eq_cons hbreak
  simp [atLineEnd, before, hrest]

private theorem canRead_before (hbreak : '\n' ∈ c.rest) : (c.before more).canRead = true := by
  obtain ⟨ch, rest, hrest⟩ := exists_rest_eq_cons hbreak
  simp [canRead, before, hrest]

private theorem canRead_of_break_mem (hbreak : '\n' ∈ c.rest) : c.canRead = true := by
  obtain ⟨ch, rest, hrest⟩ := exists_rest_eq_cons hbreak
  simp [canRead, hrest]

private theorem level_before (hbreak : '\n' ∈ c.rest) : (c.before more).level = c.level := by
  rw [level, level, canRead_before more hbreak, canRead_of_break_mem hbreak]
  rfl

theorem peek_before (hbreak : '\n' ∈ c.rest) : (c.before more).peek = c.peek := by
  obtain ⟨ch, rest, hrest⟩ := exists_rest_eq_cons hbreak
  simp [peek, before, hrest]

private theorem takeWhile_before {p : Char → Bool} (hp : p '\n' = false) (hbreak : '\n' ∈ c.rest) :
    (c.before more).takeWhile p = ((c.takeWhile p).1, (c.takeWhile p).2.before more) := by
  have hpasses := passes_takeWhile (p := p) c hp
  have hrest := hpasses.break_mem hbreak
  obtain ⟨ch, rest, hdrop⟩ := exists_rest_eq_cons hrest
  have hdrop : c.rest.dropWhile p = ch :: rest := hdrop
  have htake : (c.rest.takeWhile p).length ≠ c.rest.length := by
    have hlength := congrArg List.length
      (List.takeWhile_append_dropWhile (p := p) (l := c.rest))
    rw [hdrop, List.length_append, List.length_cons] at hlength
    omega
  simp [takeWhile, before, forward, List.takeWhile_append, List.dropWhile_append, htake, hdrop]

private theorem skipBlanks_before (hbreak : '\n' ∈ c.rest) :
    (c.before more).skipBlanks = c.skipBlanks.before more := by
  rw [skipBlanks, takeWhile_before more (by decide) hbreak]
  rfl

theorem read?_before {ch : Char} (hbreak : '\n' ∈ c.rest) (hread : c.read? = some (ch, d)) :
    (c.before more).read? = some (ch, d.before more) := by
  unfold Cursor.read? at hread ⊢
  split at hread
  · cases hread
  rename_i y rest hrest
  rw [hrest] at hbreak
  have hrest' : (c.before more).rest = y :: (rest ++ more) := by simp [before, hrest]
  rw [hrest']
  dsimp only
  split at hread
  · rename_i hy
    obtain ⟨rfl, rfl⟩ := Prod.mk.inj (Option.some.inj hread)
    rw [if_pos hy]
    rfl
  rename_i hy
  rw [if_neg hy]
  split at hread
  · rename_i hcomment
    obtain ⟨rfl, rfl⟩ := Prod.mk.inj (Option.some.inj hread)
    rw [if_pos hcomment]
    -- The comment ends at the line break, before the text goes on.
    have hmem : '\n' ∈ rest := (List.mem_cons.mp hbreak).resolve_left fun h => hy h.symm
    cases hdrop : rest.dropWhile (· != '\n') with
    | nil =>
      have hall := List.dropWhile_eq_nil_iff.mp hdrop '\n' hmem
      cases hall
    | cons z left => simp [nextLine, before, List.dropWhile_append, hdrop]
  · rename_i hcomment
    obtain ⟨rfl, rfl⟩ := Prod.mk.inj (Option.some.inj hread)
    rw [if_neg hcomment]
    rfl

/-- What reading indentation does where a character is left. -/
theorem readIndent_of_read? {limit : Option Nat} {x : Char} (h : c.read? = some (x, d)) :
    c.readIndent limit =
      if limit.any (· < c.column) then (.ok c.level, c)
      else if c.atLineEnd then d.readIndent limit
      else
        match c.peek with
        | none => (.ok 0, c)
        | some ch =>
          if isIndentChar ch then
            match c.style with
            | none => (d.withStyle ch).readIndent limit
            | some style =>
              if ch = style then d.readIndent limit
              else (.error ⟨.mixedIndentation style ch, c.point⟩, c)
          else (.ok c.level, c) := by
  rw [readIndent]
  split
  · rename_i hnone
    rw [h] at hnone
    cases hnone
  · rename_i hread
    rw [h] at hread
    obtain ⟨-, rfl⟩ := Prod.mk.inj (Option.some.inj hread)
    rfl

/-- Indentation is read alike in a longer text, if it ends at some text of the shorter one. -/
theorem readIndent_before {limit : Option Nat} {r : Except SyntaxError Nat} (hends : c.EndsLine)
    (h : c.readIndent limit = (r, d)) (hcan : d.canRead = true) :
    (c.before more).readIndent limit = (r, d.before more) := by
  fun_induction readIndent limit c with
  | case1 c hnone =>
    obtain ⟨-, rfl⟩ := Prod.mk.inj h
    simp [canRead, rest_eq_nil_of_read? hnone] at hcan
  | case2 c _ _ hread _ hlimit =>
    obtain ⟨rfl, rfl⟩ := Prod.mk.inj h
    have hbreak := hends.break_mem_of_lt (remaining_lt_of_read? hread)
    rw [readIndent_of_read? (read?_before more hbreak hread), level_before more hbreak]
    exact if_pos hlimit
  | case3 c _ _ hread _ hlimit hend ih =>
    have hbreak := hends.break_mem_of_lt (remaining_lt_of_read? hread)
    rw [readIndent_of_read? (read?_before more hbreak hread), atLineEnd_before more hbreak,
      ← ih (hends.read? hend hread) h]
    exact (if_neg hlimit).trans (if_pos hend)
  | case4 c _ _ hread _ _ hend hpeek =>
    have hnil : c.rest = [] := by simpa [peek] using hpeek
    simp [Cursor.read?, hnil] at hread
  | case5 c _ _ hread _ hlimit hend ch hpeek hblank hstyle ih =>
    have hbreak := hends.break_mem_of_lt (remaining_lt_of_read? hread)
    have hnext : (withStyle ch _).EndsLine :=
      hends.reaches ((Reaches.of_read? hread).trans (.styled (.refl _)))
    rw [readIndent_of_read? (read?_before more hbreak hread), atLineEnd_before more hbreak,
      peek_before more hbreak, ← ih hnext h]
    simp only [before, hlimit, hend, hpeek, hblank, hstyle]
    rfl
  | case6 c _ _ hread _ hlimit hend ch hstyle hpeek hblank ih =>
    have hbreak := hends.break_mem_of_lt (remaining_lt_of_read? hread)
    have hnext := hends.reaches (Reaches.of_read? hread)
    rw [readIndent_of_read? (read?_before more hbreak hread), atLineEnd_before more hbreak,
      peek_before more hbreak, ← ih hnext h]
    simp [before, hlimit, hend, hpeek, hblank, hstyle]
  | case7 c _ _ hread _ hlimit hend ch hpeek hblank style hstyle hne =>
    obtain ⟨rfl, rfl⟩ := Prod.mk.inj h
    have hbreak := hends.break_mem_of_lt (remaining_lt_of_read? hread)
    rw [readIndent_of_read? (read?_before more hbreak hread), atLineEnd_before more hbreak,
      peek_before more hbreak]
    simp [before, hlimit, hend, hpeek, hblank, hstyle, hne, point]
  | case8 c _ _ hread _ hlimit hend ch hpeek hblank =>
    obtain ⟨rfl, rfl⟩ := Prod.mk.inj h
    have hbreak := hends.break_mem_of_lt (remaining_lt_of_read? hread)
    rw [readIndent_of_read? (read?_before more hbreak hread), atLineEnd_before more hbreak,
      peek_before more hbreak, level_before more hbreak]
    simp [before, hend, hpeek, hblank]

end Cursor

namespace Lexer

variable {lx next : Lexer} {ts : List Token} {c d : Cursor}

/-- The lexer in the same place of a text that goes on. -/
def before (more : List Char) (lx : Lexer) : Lexer := { lx with cursor := lx.cursor.before more }

variable (more : List Char)

@[simp]
theorem mode_before (lx : Lexer) : (lx.before more).mode = lx.mode := rfl

/-! ### Code -/

private theorem number_before {t : Token} (hbreak : '\n' ∈ c.rest) (h : number c = .ok (t, d)) :
    number (c.before more) = .ok (t, d.before more) := by
  have hwhole := Cursor.passes_takeWhile (p := isAsciiDigit) c (by decide)
  have hafter := hwhole.break_mem hbreak
  obtain ⟨ch, left, hleft⟩ := Cursor.exists_rest_eq_cons hafter
  simp only [number] at h ⊢
  rw [Cursor.takeWhile_before more (by decide) hbreak]
  dsimp only
  split at h
  · rename_i rest hrest
    have hpoint := Cursor.passes_one hrest (by decide)
    have hrest' : ((c.takeWhile isAsciiDigit).2.before more).rest = '.' :: (rest ++ more) := by
      simp [Cursor.before, hrest]
    have hforward : ((c.takeWhile isAsciiDigit).2.before more).forward 1 (rest ++ more)
        = ((c.takeWhile isAsciiDigit).2.forward 1 rest).before more := rfl
    simp only [hrest', hforward,
      Cursor.takeWhile_before more (p := isAsciiDigit) (by decide) (hpoint.break_mem hafter)]
    split at h
    · cases h
    · rename_i hfraction
      obtain ⟨rfl, rfl⟩ := Prod.mk.inj (Except.ok.inj h)
      rw [if_neg hfraction]
      rfl
  · rename_i hother
    obtain ⟨rfl, rfl⟩ := Prod.mk.inj (Except.ok.inj h)
    have hch : ch ≠ '.' := by
      rintro rfl
      exact hother left hleft
    split
    · rename_i hrest
      rw [Cursor.before, hleft] at hrest
      exact absurd (List.cons.inj hrest).1 hch
    · rfl

private theorem word_before (hbreak : '\n' ∈ c.rest) :
    word (c.before more) = ((word c).1, (word c).2.before more) := by
  have htake := Cursor.takeWhile_before more (p := Cursor.continuesName) (by decide) hbreak
  simp only [word, htake]
  rfl

/-- A sign is recognized by two characters, of which a line break can be the second. -/
theorem sign?_append {ch : Char} {rest : List Char} (hrest : '\n' ∈ rest) :
    sign? (ch :: rest ++ more) = sign? (ch :: rest) := by
  obtain ⟨x, rest, rfl⟩ := List.exists_cons_of_ne_nil (List.ne_nil_of_mem hrest)
  rfl

private theorem sign_before {s : Sign} (hsign : sign? c.rest = some s) :
    sign (c.before more) s = ((sign c s).1, (sign c s).2.before more) := by
  obtain ⟨rest, hrest⟩ := spelling_of_sign? hsign
  simp [sign, Cursor.before, Cursor.forward, hrest, tokenBetween]

private theorem quoteRun_before (hbreak : '\n' ∈ c.rest) :
    quoteRun (c.before more) = ((quoteRun c).1, (quoteRun c).2.before more) :=
  Cursor.takeWhile_before more (by decide) hbreak

private theorem skipLineEnd_before (hbreak : '\n' ∈ c.rest) :
    skipLineEnd (c.before more) = (skipLineEnd c).before more := by
  obtain ⟨ch, d, hread⟩ := Cursor.exists_read?_eq_some hbreak
  unfold skipLineEnd
  rw [Cursor.atLineEnd_before more hbreak, hread, Cursor.read?_before more hbreak hread]
  split <;> rfl

private theorem openString_before (hbreak : '\n' ∈ c.rest) (h : openString lx c = .ok (ts, next)) :
    openString (lx.before more) (c.before more) = .ok (ts, next.before more) := by
  have hpasses : c.Passes (quoteRun c).1 (quoteRun c).2 := Cursor.passes_takeWhile _ (by decide)
  have hline := skipLineEnd_before more (hpasses.break_mem hbreak)
  simp only [openString, quoteRun_before more hbreak, hline] at h ⊢
  split at h
  · rename_i hlength
    rw [dif_pos hlength]
    split at h
    · cases h
    · rename_i hhole
      obtain ⟨rfl, rfl⟩ := Prod.mk.inj (Except.ok.inj h)
      exact if_neg hhole
  · rename_i hlength
    rw [dif_neg hlength]
    split at h <;> rename_i htwo <;> obtain ⟨rfl, rfl⟩ := Prod.mk.inj (Except.ok.inj h)
    · exact if_pos htwo
    · exact if_neg htwo

private theorem code_before (hbreak : '\n' ∈ lx.cursor.rest) (h : lx.code = .ok (ts, next)) :
    (lx.before more).code = .ok (ts, next.before more) := by
  have hblank := (Cursor.passes_skipBlanks lx.cursor).break_mem hbreak
  obtain ⟨ch, rest, hrest⟩ := Cursor.exists_rest_eq_cons hblank
  have hskip : (lx.before more).cursor.skipBlanks = lx.cursor.skipBlanks.before more :=
    Cursor.skipBlanks_before more hbreak
  have hrest' : (lx.cursor.skipBlanks.before more).rest = ch :: (rest ++ more) := by
    simp [Cursor.before, hrest]
  simp only [code, hskip, hrest, hrest', Cursor.atLineEnd_before more hblank, mode_before] at h ⊢
  split at h
  · rename_i hend
    rw [if_pos hend]
    split at h
    · cases h
    · rename_i hmode
      rw [if_neg hmode]
      obtain ⟨x, d, hread⟩ := Cursor.exists_read?_eq_some hblank
      rw [Cursor.read?_before more hblank hread]
      rw [hread] at h
      obtain ⟨rfl, rfl⟩ := Prod.mk.inj (Except.ok.inj h)
      rfl
  rename_i hend
  rw [if_neg hend]
  split at h
  · rename_i hdigit
    rw [if_pos hdigit]
    split at h
    · rename_i t d hnumber
      obtain ⟨rfl, rfl⟩ := Prod.mk.inj (Except.ok.inj h)
      rw [number_before more hblank hnumber]
      rfl
    · cases h
  rename_i hdigit
  rw [if_neg hdigit]
  split at h
  · rename_i hname
    obtain ⟨rfl, rfl⟩ := Prod.mk.inj (Except.ok.inj h)
    rw [if_pos hname, word_before more hblank]
    rfl
  rename_i hname
  rw [if_neg hname]
  split at h
  · rename_i hquote
    rw [if_pos hquote]
    exact openString_before more hblank h
  rename_i hquote
  rw [if_neg hquote]
  split at h
  · rename_i hbrace
    obtain ⟨rfl, rfl⟩ := Prod.mk.inj (Except.ok.inj h)
    exact if_pos hbrace
  rename_i hbrace
  -- The character is no line break, so the break comes after it.
  have hmem : '\n' ∈ rest := by
    rw [hrest] at hblank
    refine (List.mem_cons.mp hblank).resolve_left ?_
    rintro rfl
    simp [Cursor.atLineEnd, hrest] at hend
  split at h
  · rename_i s hsign
    obtain ⟨rfl, rfl⟩ := Prod.mk.inj (Except.ok.inj h)
    have hsign' : sign? (ch :: (rest ++ more)) = some s := by
      rw [← hsign]
      exact sign?_append more hmem
    simp only [if_neg hbrace, hsign', sign_before more (hrest ▸ hsign)]
    rfl
  · cases h

/-! ### Strings -/

private theorem startsWithQuotes_append {quotes : Nat} {cs : List Char} (hbreak : '\n' ∈ cs) :
    startsWithQuotes quotes (cs ++ more) = startsWithQuotes quotes cs := by
  unfold startsWithQuotes
  by_cases hle : quotes ≤ cs.length
  · rw [List.take_append_of_le_length hle]
  · -- The quotes would have to go past the line break.
    have hshort : cs.take quotes ≠ List.replicate quotes '"' := by
      intro heq
      have hlength := congrArg List.length heq
      rw [List.length_take, List.length_replicate] at hlength
      omega
    have hlong : (cs ++ more).take quotes ≠ List.replicate quotes '"' := by
      intro heq
      have hmem : '\n' ∈ (cs ++ more).take quotes := by
        rw [List.take_append, List.take_of_length_le (by omega)]
        exact List.mem_append_left _ hbreak
      rw [heq] at hmem
      cases List.eq_of_mem_replicate hmem
    rw [beq_eq_false_iff_ne.mpr hshort, beq_eq_false_iff_ne.mpr hlong]

/-- A character that neither starts an escape nor is a lone backslash is no backslash. -/
theorem ne_backslash {ch : Char} {rest : List Char} (hlone : ch = '\\' → rest = [] → False)
    (hescape : ∀ x more, ch = '\\' → rest = x :: more → False) : ch ≠ '\\' := by
  rintro rfl
  cases rest with
  | nil => exact hlone rfl rfl
  | cons x more => exact hescape x more rfl rfl

/-- What is read of the content of a string from a character that starts no escape on. -/
theorem content_of_ne {quotes column : Nat} {ch : Char} (hch : ch ≠ '\\') (rest : List Char) :
    content quotes column (ch :: rest) =
      if ch == '\n' || ch == '#' || ch == '{' || startsWithQuotes quotes (ch :: rest) then
        .ok ([], column, ch :: rest)
      else
        match content quotes (column + 1) rest with
        | .ok (text, last, left) => .ok (ch :: text, last, left)
        | .error e => .error e :=
  content.eq_4 quotes column ch rest (fun heq _ => hch heq) (fun _ _ heq _ => hch heq)

private theorem content_append {quotes column last : Nat} {cs text left : List Char}
    (hbreak : '\n' ∈ cs) (h : content quotes column cs = .ok (text, last, left)) :
    content quotes column (cs ++ more) = .ok (text, last, left ++ more) := by
  fun_induction content quotes column cs generalizing text last left with
  | case1 => cases hbreak
  | case2 | case3 | case5 | case8 => cases h
  | case4 column ch rest plain hescape text' last' left' hrec ih =>
    obtain ⟨rfl, rfl, rfl⟩ := by simpa using h
    have hch := unescape?_ne_break hescape
    have hmem : '\n' ∈ rest := by simpa [hch.symm] using hbreak
    simp [content, hescape, ih hmem hrec]
  | case6 column ch rest hlone hescape hstops =>
    obtain ⟨rfl, rfl, rfl⟩ := by simpa using h
    rw [List.cons_append, content_of_ne (ne_backslash hlone hescape), ← List.cons_append,
      startsWithQuotes_append more hbreak, if_pos hstops, List.cons_append]
  | case7 column ch rest hlone hescape hstops text' last' left' hrec ih =>
    obtain ⟨rfl, rfl, rfl⟩ := by simpa using h
    have hmem : '\n' ∈ rest := by
      refine (List.mem_cons.mp hbreak).resolve_left ?_
      rintro rfl
      simp at hstops
    rw [List.cons_append, content_of_ne (ne_backslash hlone hescape), ← List.cons_append,
      startsWithQuotes_append more hbreak, if_neg hstops, ih hmem hrec]

private theorem readContent_before {quotes : Nat} {text : List Char} (hbreak : '\n' ∈ c.rest)
    (h : readContent quotes c = .ok (text, d)) :
    readContent quotes (c.before more) = .ok (text, d.before more) := by
  unfold readContent at h ⊢
  split at h
  · rename_i hcontent
    obtain ⟨rfl, rfl⟩ := Prod.mk.inj (Except.ok.inj h)
    rw [show content quotes (c.before more).column (c.before more).rest = _ from
      content_append more hbreak hcontent]
    rfl
  · cases h

private theorem lineString_before (hbreak : '\n' ∈ lx.cursor.rest)
    (h : lx.lineString = .ok (ts, next)) :
    (lx.before more).lineString = .ok (ts, next.before more) := by
  simp only [lineString] at h ⊢
  split at h
  · cases h
  rename_i text c hcontent
  rw [show readContent 1 (lx.before more).cursor = _ from readContent_before more hbreak hcontent]
  split at h
  · rename_i rest hrest
    obtain ⟨rfl, rfl⟩ := Prod.mk.inj (Except.ok.inj h)
    simp only [Cursor.before, hrest, List.cons_append]
    rfl
  · rename_i rest hrest
    obtain ⟨rfl, rfl⟩ := Prod.mk.inj (Except.ok.inj h)
    simp only [Cursor.before, hrest, List.cons_append]
    rfl
  · cases h

private theorem blockContent_before {string : BlockString} (hbreak : '\n' ∈ c.rest)
    (h : lx.blockContent string c = .ok (ts, next)) :
    (lx.before more).blockContent string (c.before more) = .ok (ts, next.before more) := by
  simp only [blockContent] at h ⊢
  split at h
  · cases h
  rename_i text d hcontent
  obtain ⟨raw, hraw, -⟩ := readContent_passes hcontent
  have hafter := hraw.break_mem hbreak
  rw [readContent_before more hbreak hcontent]
  split at h
  · cases h
  · rename_i rest hrest
    obtain ⟨rfl, rfl⟩ := Prod.mk.inj (Except.ok.inj h)
    simp only [Cursor.before, hrest, List.cons_append]
    rfl
  · rename_i rest hrest
    have hquotes : string.quotes ≤ d.rest.length := by
      have hlength := congrArg List.length
        (passes_quotes (startsWithQuotes_of_readContent hcontent hrest)).rest
      rw [List.length_append, List.length_replicate] at hlength
      omega
    obtain ⟨rfl, rfl⟩ := Prod.mk.inj (Except.ok.inj h)
    have hrest' : (d.before more).rest = '"' :: (rest ++ more) := by simp [Cursor.before, hrest]
    have hdrop : ('"' :: (rest ++ more)).drop string.quotes
        = d.rest.drop string.quotes ++ more := by
      rw [← List.cons_append, ← hrest, List.drop_append_of_le_length hquotes]
    simp only [hrest', hdrop]
    rfl
  · obtain ⟨x, e, hread⟩ := Cursor.exists_read?_eq_some hafter
    obtain ⟨ch, rest, hrest⟩ := Cursor.exists_rest_eq_cons hafter
    rename_i hnil hhole hclose
    have hrest' : (d.before more).rest = ch :: (rest ++ more) := by simp [Cursor.before, hrest]
    rw [hread] at h
    obtain ⟨rfl, rfl⟩ := Prod.mk.inj (Except.ok.inj h)
    dsimp only
    split <;> rename_i heq
    · simp [hrest'] at heq
    · obtain ⟨rfl, -⟩ := List.cons.inj (hrest'.symm.trans heq)
      exact absurd hrest (hhole rest)
    · obtain ⟨rfl, -⟩ := List.cons.inj (hrest'.symm.trans heq)
      exact absurd hrest (hclose rest)
    · rw [Cursor.read?_before more hafter hread]
      rfl

private theorem blockIndentation_before {string string' : BlockString} (hends : c.EndsLine)
    (hcan : d.canRead = true) (h : blockIndentation string c = (ts, .ok (string', d))) :
    blockIndentation string (c.before more) = (ts, .ok (string', d.before more)) := by
  unfold blockIndentation at h ⊢
  split at h
  · cases (Prod.mk.inj h).2
  rename_i level e hread
  dsimp only at h
  split at h
  · cases (Prod.mk.inj h).2
  rename_i hlevel
  obtain ⟨rfl, hok⟩ := Prod.mk.inj h
  obtain ⟨rfl, rfl⟩ := Prod.mk.inj (Except.ok.inj hok)
  have hbreak := (hends.reaches (Cursor.readIndent_reaches hread)).break_mem hcan
  rw [Cursor.readIndent_before more hends hread hcan]
  dsimp only
  rw [hcan] at hlevel
  rw [Cursor.canRead_before more hbreak]
  exact if_neg hlevel

private theorem blockString_before {string : BlockString} {texts : List Token}
    (hends : lx.cursor.EndsLine) (h : lx.blockString string = (texts, .ok (ts, next))) :
    (lx.before more).blockString string = (texts, .ok (ts, next.before more)) := by
  have hbreak := hends.break_mem_of_lt (remaining_blockString_lt h)
  have hcan : (lx.before more).cursor.canRead = lx.cursor.canRead := by
    rw [Cursor.canRead_of_break_mem hbreak]
    exact Cursor.canRead_before more hbreak
  have hstart : (lx.before more).cursor.atLineStart = lx.cursor.atLineStart := rfl
  unfold blockString at h ⊢
  rw [hcan, hstart]
  split at h
  · rename_i hline
    rw [if_pos hline]
    split at h
    · cases (Prod.mk.inj h).2
    · rename_i string' d hindent
      obtain ⟨rfl, hok⟩ := Prod.mk.inj h
      have hd := hends.reaches (blockIndentation_cases hindent).2
      have hbreak' := hd.break_mem_of_lt (remaining_blockContent_lt hok)
      have hindent' := blockIndentation_before more hends
        (Cursor.canRead_of_break_mem hbreak') hindent
      rw [show blockIndentation string (lx.before more).cursor = _ from hindent']
      dsimp only
      rw [blockContent_before more hbreak' hok]
  · rename_i hline
    obtain ⟨rfl, hok⟩ := Prod.mk.inj h
    rw [if_neg hline, show blockContent (lx.before more) string (lx.before more).cursor = _ from
      blockContent_before more hbreak hok]

/-! ### Steps -/

private theorem lineIndentation_before {margin : List Token} (hends : lx.cursor.EndsLine)
    (hcan : next.cursor.canRead = true) (h : lx.lineIndentation = (margin, .ok next)) :
    (lx.before more).lineIndentation = (margin, .ok (next.before more)) := by
  have hread_of {level : Nat} {c : Cursor} (hcan : c.canRead = true)
      (hread : lx.cursor.readIndent none = (.ok level, c)) :
      (lx.before more).cursor.readIndent none = (.ok level, c.before more) ∧
        (c.before more).canRead = true :=
    ⟨Cursor.readIndent_before more hends hread hcan, Cursor.canRead_before more
      ((hends.reaches (Cursor.readIndent_reaches hread)).break_mem hcan)⟩
  rcases lineIndentation_cases h with hmargin | ⟨_, c, -, hend, -, rfl⟩
  · unfold lineIndentation
    cases hmargin with
    | wider hread hcan hwider =>
      obtain ⟨hread', hcan'⟩ := hread_of hcan hread
      simp only [hread', hcan', Bool.not_true]
      exact if_pos hwider
    | narrower hread hcan hnarrower hopen =>
      obtain ⟨hread', hcan'⟩ := hread_of hcan hread
      simp only [hread', hcan', Bool.not_true]
      exact (if_neg (Nat.not_lt.mpr hnarrower)).trans (if_pos hopen)
  · rw [show (lx.moveTo c).cursor.canRead = false from hend] at hcan
    cases hcan

private theorem codeStep_before {margin : List Token} (hends : lx.cursor.EndsLine)
    (h : codeStep lx margin = .more ts next) :
    codeStep (lx.before more) margin = .more ts (next.before more) := by
  have hbreak := hends.break_mem_of_lt (remaining_codeStep_lt h)
  have hcan : (lx.before more).cursor.canRead = true := Cursor.canRead_before more hbreak
  unfold codeStep at h ⊢
  rw [if_pos (Cursor.canRead_of_break_mem hbreak)] at h
  obtain ⟨own, last, hcode, rfl, rfl⟩ := eq_of_stepTo h
  rw [if_pos hcan, code_before more hbreak hcode]
  rfl

/-- A step that goes on makes the same move in a text that goes on. -/
theorem step_before (hends : lx.cursor.EndsLine) (h : lx.step = .more ts next) :
    (lx.before more).step = .more ts (next.before more) := by
  have hbreak := hends.break_mem_of_lt (remaining_lt_of_step h)
  unfold step at h ⊢
  rw [mode_before]
  split at h
  · obtain ⟨own, last, hstring, rfl, rfl⟩ := eq_of_stepTo h
    rw [lineString_before more hbreak hstring]
    rfl
  · obtain ⟨own, last, hstring, rfl, rfl⟩ := eq_of_stepTo h
    have hstring' := blockString_before more hends (Prod.ext rfl hstring)
    dsimp only
    rw [hstring']
    rfl
  · exact codeStep_before more hends h
  · have hcan : (lx.before more).cursor.canRead = lx.cursor.canRead := by
      rw [Cursor.canRead_of_break_mem hbreak]
      exact Cursor.canRead_before more hbreak
    have hstart : (lx.before more).cursor.atLineStart = lx.cursor.atLineStart := rfl
    rw [hcan, hstart]
    split at h
    · rename_i hline
      rw [if_pos hline]
      split at h
      · rename_i margin start hindent
        obtain ⟨hread, -⟩ := eq_of_codeStep h
        have hreach : lx.cursor.Reaches start.cursor := by
          rcases lineIndentation_cases hindent with hmargin | ⟨_, _, hlevel, -, -, rfl⟩
          · exact hmargin.reaches
          · exact Cursor.readIndent_reaches hlevel
        rw [lineIndentation_before more hends hread hindent]
        exact codeStep_before more (hends.reaches hreach) h
      · cases h
    · rename_i hline
      rw [if_neg hline]
      exact codeStep_before more hends h

/-- Where a step goes on, the tokens of the longer text go on alike. -/
theorem tokens_before (hends : lx.cursor.EndsLine) (h : lx.step = .more ts next) :
    (lx.before more).tokens = (next.before more).tokens.prepend ts := by
  rw [tokens_eq, step_before more hends h]

/-- At the end of a text that ends in a line break the lexer stands between two lines. -/
theorem LaidOut.lines_of_done {text : String} {acc : List Token} (h : LaidOut text acc lx)
    (hends : lx.cursor.EndsLine) (hstep : lx.step = .done ts) :
    lx.lineOpen = false ∧ ∃ lines : List TokenLine,
      acc = lines.flatMap TokenLine.tokens ∧ ∀ l ∈ lines, l.WellFormed := by
  obtain ⟨lines, margin, body, bs, rfl, h⟩ := h
  obtain ⟨hmode, c, hending, -⟩ := step_done hstep
  obtain rfl := h.nested.of_code hmode
  have hcolumn : lx.cursor.column = 1 := by
    cases hending with
    | here hend => exact hends.column (by simpa [Cursor.canRead] using hend)
    | blankLines hcolumn => exact hcolumn
  obtain rfl : body = [] := by
    by_cases hbody : body = []
    · exact hbody
    · have := h.within hbody rfl
      omega
  obtain ⟨rfl, -⟩ := h.between rfl
  exact ⟨h.lineOpen, lines, by simp [tokensUpTo], h.wellFormed⟩

/-- The lexer comes to the end of a text without faults, and a longer text goes on from there. -/
theorem exists_done {text : String} (hends : (Cursor.ofText text).EndsLine)
    (hfault : (tokensOf text).fault = none) :
    ∃ acc lx ts, LaidOut text acc lx ∧ lx.cursor.EndsLine ∧
      (Cursor.ofText text).Reaches lx.cursor ∧ lx.step = .done ts ∧
      (tokensOf text).items = acc ++ ts ∧
      ∀ more, ((ofText text).before more).tokens = (lx.before more).tokens.prepend acc := by
  refine invariant_of_tokens
    (P := fun acc lx => LaidOut text acc lx ∧ lx.cursor.EndsLine ∧
      (Cursor.ofText text).Reaches lx.cursor ∧
      ∀ more, ((ofText text).before more).tokens = (lx.before more).tokens.prepend acc)
    (Q := fun listing => listing.fault = none → ∃ acc lx ts, LaidOut text acc lx ∧
      lx.cursor.EndsLine ∧ (Cursor.ofText text).Reaches lx.cursor ∧ lx.step = .done ts ∧
      listing.items = acc ++ ts ∧
      ∀ more, ((ofText text).before more).tokens = (lx.before more).tokens.prepend acc)
    ?_ ?_ ?_ ?_ hfault
  · rintro acc lx ts next ⟨hlaid, hends, hreach, htokens⟩ hstep
    obtain ⟨moved, hmove, rfl⟩ := step_more hstep
    refine ⟨hlaid.step hstep, hends.reaches hmove.reaches, hreach.trans hmove.reaches, ?_⟩
    intro more
    rw [htokens, tokens_before more hends hstep]
    simp [Listing.prepend]
  · rintro acc lx ts ⟨hlaid, hends, hreach, htokens⟩ hstep -
    exact ⟨acc, lx, ts, hlaid, hends, hreach, hstep, rfl, htokens⟩
  · rintro acc lx ts e - - hfault
    cases hfault
  · exact ⟨laidOut_ofText text, hends, .refl _, fun _ => rfl⟩

end Lexer

/-- Some tokens are complete lines, the ends of the blocks that are open after them and the end
of the source, and a longer listing of tokens starts with the same lines. -/
def KeepsLines (tokens : List Token) (longer : Listing Token SyntaxError) : Prop :=
  ∃ (lines : List TokenLine) (closing : List Token) (last : Token)
    (more : Listing Token SyntaxError),
    tokens = lines.flatMap TokenLine.tokens ++ closing ++ [last] ∧
    (∀ l ∈ lines, l.WellFormed) ∧ (∀ t ∈ closing, t.kind = .dedent) ∧
    longer = more.prepend (lines.flatMap TokenLine.tokens)

/-- More text after a line break leaves the tokens of the lines as they are. -/
theorem keepsLines_append {text : String} {x : Char} (hlast : text.toList.getLast? = some x)
    (hx : isBreak x = true) (hfault : (tokensOf text).fault = none) (after : String) :
    KeepsLines (tokensOf text).items (tokensOf (text ++ after)) := by
  obtain ⟨more, hmore⟩ := normalizeBreaks_append text.toList after.toList
  have hstart : Lexer.ofText (text ++ after) = (Lexer.ofText text).before more := by
    simp [Lexer.ofText, Lexer.before, Cursor.ofText, Cursor.before, String.toList_append, hmore]
  obtain ⟨acc, lx, ts, hlaid, hends, -, hstep, hitems, htokens⟩ :=
    Lexer.exists_done (Cursor.endsLine_ofText hlast hx) hfault
  obtain ⟨hopen, lines, rfl, hlines⟩ := hlaid.lines_of_done hends hstep
  obtain ⟨-, c, -, rfl⟩ := Lexer.step_done hstep
  refine ⟨lines, lx.indents.dropLast.map fun _ => .atSpan .dedent "" c.point,
    .atSpan .sourceEnd "" c.point, (lx.before more).tokens, ?_, hlines, ?_, ?_⟩
  · rw [hitems]
    simp [hopen]
  · intro t ht
    obtain ⟨_, -, rfl⟩ := List.mem_map.mp ht
    rfl
  · rw [← htokens more, ← hstart]
    rfl

end DialogScript
