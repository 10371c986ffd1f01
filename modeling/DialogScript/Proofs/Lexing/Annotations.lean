import Mathlib.Data.List.DropRight
import DialogScript.Proofs.Lexing.Comments

/-!
# Comments and line breaks

A text has the tokens of the text that is left of it without comments (`LaidOut.endsAlike`), so
comments can be appended to its lines and its line breaks can be written in another way without
any effect on its tokens (`tokenize_annotated`). The only trace of a comment is at the end of the
source: where the last line ends in one, the source ends on the line after it.

The parts of the lexer do the same in a text and in the text without comments, unless both come
to the end of the source in a string or in a hole, and then both fail (`Agree`). In code both
close the last line at the same place, and the blocks that are open each at its own end.
-/

namespace DialogScript

open Text

/-- Tokens of the same kinds and texts. They also have the same places, up to the tokens at the end
that close the open blocks and end the source. -/
structure SameUpToEnd (ts us : List Token) : Prop where
  kinds : ts.map Token.kind = us.map Token.kind
  texts : ts.map Token.text = us.map Token.text
  places : ts.rdropWhile Token.isClosing = us.rdropWhile Token.isClosing

namespace SameUpToEnd

variable {ts us vs : List Token}

theorem symm (h : SameUpToEnd ts us) : SameUpToEnd us ts :=
  ⟨h.kinds.symm, h.texts.symm, h.places.symm⟩

theorem trans (h : SameUpToEnd ts us) (h' : SameUpToEnd us vs) : SameUpToEnd ts vs :=
  ⟨h.kinds.trans h'.kinds, h.texts.trans h'.texts, h.places.trans h'.places⟩

theorem append (h : SameUpToEnd ts us) (before : List Token) :
    SameUpToEnd (before ++ ts) (before ++ us) := by
  have hplaces := List.reverse_injective h.places
  refine ⟨?_, ?_, ?_⟩
  · rw [List.map_append, List.map_append, h.kinds]
  · rw [List.map_append, List.map_append, h.texts]
  · rw [List.rdropWhile, List.rdropWhile, List.reverse_append, List.reverse_append,
      List.dropWhile_append, List.dropWhile_append, hplaces]

end SameUpToEnd

/-- Two listings of tokens that both end in a fault, or both in tokens that are the same up to the
end of the source. -/
inductive EndsAlike : Listing Token SyntaxError → Listing Token SyntaxError → Prop
  | faults {l l' : Listing Token SyntaxError} (h : l.fault ≠ none) (h' : l'.fault ≠ none) :
      EndsAlike l l'
  | ends {ts us : List Token} (h : SameUpToEnd ts us) : EndsAlike ⟨ts, none⟩ ⟨us, none⟩

theorem EndsAlike.prepend {l l' : Listing Token SyntaxError} (h : EndsAlike l l')
    (before : List Token) : EndsAlike (l.prepend before) (l'.prepend before) := by
  cases h with
  | faults h h' => exact .faults h h'
  | ends h => exact .ends (h.append before)

theorem EndsAlike.symm {l l' : Listing Token SyntaxError} (h : EndsAlike l l') :
    EndsAlike l' l := by
  cases h with
  | faults h h' => exact .faults h' h
  | ends h => exact .ends h.symm

theorem EndsAlike.trans {l l' l'' : Listing Token SyntaxError} (h : EndsAlike l l')
    (h' : EndsAlike l' l'') : EndsAlike l l'' := by
  cases h with
  | faults hl hl' =>
    cases h' with
    | faults _ hl'' => exact .faults hl hl''
    | ends => exact absurd rfl hl'
  | ends h =>
    cases h' with
    | faults hl' => exact absurd rfl hl'
    | ends h' => exact .ends (h.trans h')

theorem EndsAlike.toExcept {l l' : Listing Token SyntaxError} (h : EndsAlike l l') :
    ((∃ us, l'.toExcept = .ok us) ↔ ∃ ts, l.toExcept = .ok ts) ∧
      ∀ ts us, l.toExcept = .ok ts → l'.toExcept = .ok us → SameUpToEnd ts us := by
  have hfault {l : Listing Token SyntaxError} {ts : List Token} (h : l.fault ≠ none) :
      l.toExcept ≠ .ok ts := fun hok => h (Listing.eq_of_toExcept hok).2
  cases h with
  | faults h h' =>
    refine ⟨?_, fun ts us hts => absurd hts (hfault h)⟩
    constructor
    · rintro ⟨us, hus⟩
      exact absurd hus (hfault h')
    · rintro ⟨ts, hts⟩
      exact absurd hts (hfault h)
  | @ends ts us h =>
    refine ⟨⟨fun _ => ⟨ts, rfl⟩, fun _ => ⟨us, rfl⟩⟩, fun ts' us' hts hus => ?_⟩
    rwa [← Except.ok.inj hts, ← Except.ok.inj hus]

namespace Lexer

variable {lx next : Lexer} {ts : List Token} {c d : Cursor}

/-- The lexer in the same place of a text without comments. -/
def bare (lx : Lexer) : Lexer := { lx with cursor := lx.cursor.bare }

@[simp]
theorem mode_bare (lx : Lexer) : lx.bare.mode = lx.mode := rfl

theorem skipBlanks_bare (lx : Lexer) : lx.bare.cursor.skipBlanks = lx.cursor.skipBlanks.bare :=
  Cursor.skipBlanks_bare lx.cursor

private theorem bare_skipBlanks_eq_nil (h : lx.cursor.skipBlanks.bare.rest = []) :
    lx.bare.cursor.skipBlanks.bare.rest = [] := by
  rw [skipBlanks_bare, Cursor.bare_of_nil h]
  exact h

/-- The source ends in a string or in a hole. -/
def Unfinished (lx : Lexer) : Prop := lx.cursor.rest = [] ∧ lx.mode ≠ .code

private theorem unfinished_push {string : BlockString} (h : lx.cursor.rest = []) :
    (lx.push (.blockString string)).Unfinished := by
  refine ⟨h, ?_⟩
  simp [mode, push]

/-- A part of the lexer fails, or it comes to the end of the source in a string or in a hole. -/
def Fails (r : Except SyntaxError (List Token × Lexer)) : Prop :=
  ∀ ts next, r = .ok (ts, next) → next.Unfinished

/-- A part of the lexer does the same in a text and in the text without comments, or it fails in
both. -/
inductive Agree : Except SyntaxError (List Token × Lexer) →
    Except SyntaxError (List Token × Lexer) → Prop
  | ok (ts : List Token) (next : Lexer) : Agree (.ok (ts, next)) (.ok (ts, next.bare))
  | fail {r r' : Except SyntaxError (List Token × Lexer)} (h : Fails r) (h' : Fails r') :
      Agree r r'

private theorem fails_error (e : SyntaxError) : Fails (.error e) := by
  intro ts next h
  cases h

private theorem fails_ok (h : next.Unfinished) : Fails (.ok (ts, next)) := by
  intro ts' next' heq
  obtain ⟨-, rfl⟩ := Prod.mk.inj (Except.ok.inj heq)
  exact h

/-! ### Code -/

private theorem number_bare (c : Cursor) :
    number c.bare = (number c).map fun (t, d) => (t, d.bare) := by
  simp only [number, Cursor.takeWhile_bare (p := isAsciiDigit) (by decide) (by decide)]
  generalize c.takeWhile isAsciiDigit = run
  obtain ⟨whole, last⟩ := run
  dsimp only
  split
  · rename_i rest hrest
    obtain ⟨rest, hlast, rfl⟩ := exists_of_bare_eq_cons (by decide) hrest
    have hforward : last.bare.forward 1 (Text.bare false rest) = (last.forward 1 rest).bare := rfl
    simp only [hlast, hforward,
      Cursor.takeWhile_bare (p := isAsciiDigit) (by decide) (by decide)]
    split <;> rfl
  · rename_i hother
    split
    · rename_i rest hrest
      exact absurd (Cursor.rest_bare hrest (by simp [Cursor.atLineEnd, hrest])) (hother _)
    · rfl

private theorem word_bare (c : Cursor) : word c.bare = ((word c).1, (word c).2.bare) := by
  simp only [word, Cursor.takeWhile_bare (p := Cursor.continuesName) (by decide) (by decide)]
  rfl

/-- No sign holds a line break or starts a comment. -/
theorem plain_of_mem_spelling {s : Sign} : ∀ ch ∈ s.spelling.toList, ch ≠ '\n' ∧ ch ≠ '#' := by
  have hbreak : '\n' ∉ s.spelling.toList := by cases s <;> decide
  have hcomment : '#' ∉ s.spelling.toList := by cases s <;> decide
  intro ch hch
  exact ⟨ne_of_mem_of_not_mem hch hbreak, ne_of_mem_of_not_mem hch hcomment⟩

theorem sign?_of_lineEnd {ch : Char} (hend : ch = '\n' ∨ ch = '#') (rest : List Char) :
    sign? (ch :: rest) = none := by
  cases hsign : sign? (ch :: rest) with
  | none => rfl
  | some s =>
    obtain ⟨more, hmore⟩ := spelling_of_sign? hsign
    have hne : s.spelling.toList ≠ [] := by cases s <;> decide
    obtain ⟨x, spelling, hspelling⟩ := List.exists_cons_of_ne_nil hne
    have hplain := plain_of_mem_spelling (s := s) x (by simp [hspelling])
    rw [hspelling] at hmore
    obtain ⟨rfl, -⟩ := List.cons.inj hmore
    exact (hend.elim hplain.1 hplain.2).elim

/-- At the end of a line, a sign has one character. -/
theorem sign?_before_lineEnd {ch : Char} (hend : ch = '\n' ∨ ch = '#') (x : Char)
    (rest : List Char) : sign? (x :: ch :: rest) = sign? [x] := by
  have hnone : Sign.all.find? (fun s => s.spelling.toList == [x, ch]) = none := by
    rw [List.find?_eq_none]
    intro s _ hspelling
    have hplain := plain_of_mem_spelling (s := s) ch (by simp [beq_iff_eq.mp hspelling])
    exact hend.elim hplain.1 hplain.2
  simp only [sign?, List.take, hnone]
  cases Sign.all.find? fun s => s.spelling.toList == [x] <;> rfl

private theorem sign?_bare (cs : List Char) : sign? (Text.bare false cs) = sign? cs := by
  -- Only the first two characters matter, and either of them can end the line.
  have hlineEnd : ∀ rest, Text.bare false ('#' :: rest) = [] ∨
      ∃ more, Text.bare false ('#' :: rest) = '\n' :: more :=
    fun rest => (bare_comment rest).imp And.right fun ⟨more, _, h⟩ => ⟨_, h⟩
  cases cs with
  | nil => rfl
  | cons x rest =>
    by_cases hx : x = '\n'
    · subst hx
      exact (sign?_of_lineEnd (.inl rfl) _).trans (sign?_of_lineEnd (.inl rfl) _).symm
    by_cases hx' : x = '#'
    · subst hx'
      rw [sign?_of_lineEnd (.inr rfl)]
      rcases hlineEnd rest with hnil | ⟨more, hmore⟩
      · rw [hnil]
        rfl
      · rw [hmore, sign?_of_lineEnd (.inl rfl)]
    rw [bare_of_ne hx hx']
    cases rest with
    | nil => rfl
    | cons y rest =>
      by_cases hy : y = '#'
      · subst hy
        rw [sign?_before_lineEnd (.inr rfl)]
        rcases hlineEnd rest with hnil | ⟨more, hmore⟩
        · rw [hnil]
        · rw [hmore, sign?_before_lineEnd (.inl rfl)]
      · by_cases hy' : y = '\n'
        · subst hy'
          rfl
        · rw [bare_of_ne hy' hy]
          rfl

private theorem sign_bare {s : Sign} (hsign : sign? c.rest = some s) :
    sign c.bare s = ((sign c s).1, (sign c s).2.bare) := by
  obtain ⟨rest, hrest⟩ := spelling_of_sign? hsign
  have hbare := bare_append (plain_of_mem_spelling (s := s)) rest
  simp [sign, Cursor.bare, Cursor.forward, hrest, hbare, tokenBetween]

private theorem quoteRun_bare (c : Cursor) :
    quoteRun c.bare = ((quoteRun c).1, (quoteRun c).2.bare) :=
  Cursor.takeWhile_bare (by decide) (by decide) c

private theorem skipLineEnd_bare (c : Cursor) :
    skipLineEnd c.bare = (skipLineEnd c).bare ∨
      (skipLineEnd c).rest = [] ∧ (skipLineEnd c.bare).rest = [] := by
  unfold skipLineEnd
  rw [Cursor.atLineEnd_bare]
  split
  · cases hread : c.read? with
    | none =>
      have hbare := Cursor.bare_of_nil (Cursor.rest_eq_nil_of_read? hread)
      rw [hbare, hread]
      exact .inl rfl
    | some result =>
      rcases Cursor.read?_bare hread with ⟨hnil, hnext, -⟩ | hread'
      · refine .inr ⟨hnext, ?_⟩
        simp [Cursor.read?, hnil]
      · rw [hread']
        exact .inl rfl
  · exact .inl rfl

private theorem openString_bare (lx : Lexer) (c : Cursor) :
    Agree (openString lx c) (openString lx.bare c.bare) := by
  have hmodes : lx.bare.modes = lx.modes := rfl
  simp only [openString, quoteRun_bare, hmodes]
  split
  · split
    · exact .fail (fails_error _) (fails_error _)
    · rcases skipLineEnd_bare (quoteRun c).2 with hline | ⟨hnil, hnil'⟩
      · rw [hline]
        exact .ok _ _
      · exact .fail (fails_ok (unfinished_push hnil)) (fails_ok (unfinished_push hnil'))
  · split
    · exact .ok _ _
    · exact .ok _ _

private theorem code_bare (hne : lx.cursor.skipBlanks.bare.rest ≠ []) :
    Agree lx.code lx.bare.code := by
  simp only [code, skipBlanks_bare, mode_bare, Cursor.atLineEnd_bare]
  generalize lx.cursor.skipBlanks = c at hne
  cases hread : c.read? with
  | none =>
    have hnil := Cursor.rest_eq_nil_of_read? hread
    rw [Cursor.bare_of_nil hnil] at hne
    exact absurd hnil hne
  | some result =>
  obtain ⟨x, next⟩ := result
  cases hend : c.atLineEnd with
  | true =>
    have hread' : c.bare.read? = some (x, next.bare) :=
      (Cursor.read?_bare hread).resolve_left fun h => hne h.1
    obtain ⟨ch, rest, hrest⟩ := List.exists_cons_of_ne_nil (Cursor.rest_ne_nil_of_read? hread)
    obtain ⟨ch', rest', hrest'⟩ := List.exists_cons_of_ne_nil (Cursor.rest_ne_nil_of_read? hread')
    simp only [hrest, hrest', hread', if_true]
    split
    · exact .fail (fails_error _) (fails_error _)
    · exact .ok _ _
  | false =>
    obtain ⟨ch, rest, hrest⟩ := List.exists_cons_of_ne_nil (Cursor.rest_ne_nil_of_read? hread)
    have hrest' := Cursor.rest_bare hrest hend
    have hsign : sign? (ch :: Text.bare false rest) = sign? (ch :: rest) := by
      rw [← hrest', ← hrest]
      exact sign?_bare c.rest
    simp only [hrest, hrest', hsign, Bool.false_eq_true, if_false]
    split
    · rw [number_bare]
      cases number c with
      | error e => exact .fail (fails_error _) (fails_error _)
      | ok result => exact .ok _ _
    split
    · rw [word_bare]
      exact .ok _ _
    split
    · exact openString_bare lx c
    split
    · exact .ok _ _
    split
    · rename_i s hs
      rw [sign_bare (hrest ▸ hs)]
      exact .ok _ _
    · exact .fail (fails_error _) (fails_error _)

/-- A hole has to be closed before the end of the line. -/
theorem fails_code (hmode : lx.mode = .hole) (hnil : lx.cursor.skipBlanks.bare.rest = []) :
    Fails lx.code := by
  have hcode : lx.mode ≠ .code := by simp [hmode]
  simp only [code]
  rcases Cursor.read?_of_bare_eq_nil hnil with hrest | ⟨comment, next, hrest, -⟩
  · rw [hrest]
    exact fails_ok ⟨hrest, hcode⟩
  · have hend : lx.cursor.skipBlanks.atLineEnd = true := by simp [Cursor.atLineEnd, hrest]
    simp only [hrest, hend, if_true, if_pos hmode]
    exact fails_error _

/-! ### Strings -/

private theorem startsWithQuotes_bare (quotes : Nat) (cs : List Char) :
    startsWithQuotes quotes (Text.bare false cs) = startsWithQuotes quotes cs := by
  have hcons : ∀ n ch rest, startsWithQuotes (n + 1) (ch :: rest)
      = (ch == '"' && startsWithQuotes n rest) := fun _ _ _ => rfl
  induction quotes generalizing cs with
  | zero => rfl
  | succ n ih =>
    cases cs with
    | nil => rfl
    | cons ch rest =>
      by_cases hch : ch = '"'
      · subst hch
        rw [bare_of_ne (by decide) (by decide), hcons, hcons, ih]
      · rw [hcons, beq_false_of_ne hch, Bool.false_and]
        cases hbare : Text.bare false (ch :: rest) with
        | nil => rfl
        | cons x more =>
          rw [hcons, beq_false_of_ne, Bool.false_and]
          rintro rfl
          obtain ⟨rest', heq, -⟩ := exists_of_bare_eq_cons (by decide) hbare
          exact hch (List.cons.inj heq).1

/-- Behind quotes the text is the same without comments. -/
theorem drop_bare {quotes : Nat} {cs : List Char} (h : startsWithQuotes quotes cs = true) :
    (Text.bare false cs).drop quotes = Text.bare false (cs.drop quotes) := by
  have hplain : ∀ ch ∈ List.replicate quotes '"', ch ≠ '\n' ∧ ch ≠ '#' := by
    intro ch hch
    rw [List.eq_of_mem_replicate hch]
    decide
  have hcs : cs = List.replicate quotes '"' ++ cs.drop quotes := by
    rw [← beq_iff_eq.mp h, List.take_append_drop]
  have hbare := congrArg (Text.bare false) hcs
  rw [bare_append hplain] at hbare
  rw [hbare, List.drop_left' List.length_replicate]

/-- No escape holds a line break or starts a comment. -/
theorem plain_of_unescape? {ch plain : Char} (h : unescape? ch = some plain) :
    ch ≠ '\n' ∧ ch ≠ '#' := by
  constructor <;> rintro rfl <;> cases h

private theorem content_bare {quotes column last : Nat} {cs text left : List Char}
    (h : content quotes column cs = .ok (text, last, left)) :
    content quotes column (Text.bare false cs) = .ok (text, last, Text.bare false left) := by
  have hquotes : ∀ {ch}, ch ≠ '\n' → ch ≠ '#' → ∀ rest,
      startsWithQuotes quotes (ch :: Text.bare false rest) = startsWithQuotes quotes (ch :: rest) :=
    fun hbreak hcomment rest => by rw [← bare_of_ne hbreak hcomment, startsWithQuotes_bare]
  fun_induction content quotes column cs generalizing text last left with
  | case1 =>
    obtain ⟨rfl, rfl, rfl⟩ := by simpa using h
    rfl
  | case2 | case3 | case5 | case8 => cases h
  | case4 column ch rest plain hescape text' last' left' hrec ih =>
    obtain ⟨rfl, rfl, rfl⟩ := by simpa using h
    obtain ⟨hbreak, hcomment⟩ := plain_of_unescape? hescape
    rw [bare_of_ne (by decide) (by decide), bare_of_ne hbreak hcomment]
    simp [content, hescape, ih hrec]
  | case6 column ch rest hlone hescape hstops =>
    obtain ⟨rfl, rfl, rfl⟩ := by simpa using h
    have hch := ne_backslash hlone hescape
    by_cases hbreak : ch = '\n'
    · subst hbreak
      rfl
    by_cases hcomment : ch = '#'
    · subst hcomment
      rcases bare_comment rest with ⟨-, hnil⟩ | ⟨more, -, hmore⟩
      · rw [hnil]
        rfl
      · rw [hmore]
        rfl
    · rw [bare_of_ne hbreak hcomment, content_of_ne hch, hquotes hbreak hcomment, if_pos hstops]
  | case7 column ch rest hlone hescape hstops text' last' left' hrec ih =>
    obtain ⟨rfl, rfl, rfl⟩ := by simpa using h
    have hplain : ch ≠ '\n' ∧ ch ≠ '#' := by
      constructor <;> rintro rfl <;> simp at hstops
    rw [bare_of_ne hplain.1 hplain.2, content_of_ne (ne_backslash hlone hescape),
      hquotes hplain.1 hplain.2, if_neg hstops, ih hrec]

/-- An invalid escape is invalid without comments too, but may lack the character after it. -/
theorem content_bare_error {quotes column : Nat} {cs : List Char} {e : Nat × Option Char}
    (h : content quotes column cs = .error e) :
    ∃ e', content quotes column (Text.bare false cs) = .error e' := by
  fun_induction content quotes column cs with
  | case1 | case4 | case6 | case7 => cases h
  | case2 column => exact ⟨_, rfl⟩
  | case3 column ch rest hescape =>
    rw [bare_of_ne (by decide) (by decide)]
    cases hbare : Text.bare false (ch :: rest) with
    | nil => exact ⟨_, rfl⟩
    | cons x more =>
      have hx : unescape? x = none := by
        by_cases hbreak : x = '\n'
        · subst hbreak
          rfl
        · obtain ⟨_, heq, -⟩ := exists_of_bare_eq_cons hbreak hbare
          obtain ⟨rfl, -⟩ := List.cons.inj heq
          exact hescape
      exact ⟨(column, some x), by simp [content, hx]⟩
  | case5 column ch rest plain hescape e' hrec ih =>
    obtain rfl := Except.error.inj h
    obtain ⟨e'', hbare⟩ := ih hrec
    obtain ⟨hbreak, hcomment⟩ := plain_of_unescape? hescape
    rw [bare_of_ne (by decide) (by decide), bare_of_ne hbreak hcomment]
    exact ⟨e'', by simp [content, hescape, hbare]⟩
  | case8 column ch rest hlone hescape hstops e' hrec ih =>
    obtain rfl := Except.error.inj h
    obtain ⟨e'', hbare⟩ := ih hrec
    have hplain : ch ≠ '\n' ∧ ch ≠ '#' := by
      constructor <;> rintro rfl <;> simp at hstops
    refine ⟨e'', ?_⟩
    rw [bare_of_ne hplain.1 hplain.2, content_of_ne (ne_backslash hlone hescape),
      ← bare_of_ne hplain.1 hplain.2, startsWithQuotes_bare, if_neg hstops, hbare]

private theorem readContent_bare {quotes : Nat} {text : List Char}
    (h : readContent quotes c = .ok (text, d)) :
    readContent quotes c.bare = .ok (text, d.bare) := by
  unfold readContent at h ⊢
  split at h
  · rename_i hcontent
    obtain ⟨rfl, rfl⟩ := Prod.mk.inj (Except.ok.inj h)
    rw [show content quotes c.bare.column c.bare.rest = _ from content_bare hcontent]
    rfl
  · cases h

private theorem readContent_bare_error {quotes : Nat} {e : SyntaxError}
    (h : readContent quotes c = .error e) : ∃ e', readContent quotes c.bare = .error e' := by
  unfold readContent at h ⊢
  split at h
  · cases h
  · rename_i hcontent
    obtain ⟨e', hbare⟩ := content_bare_error hcontent
    rw [show content quotes c.bare.column c.bare.rest = _ from hbare]
    exact ⟨_, rfl⟩

private theorem lineString_bare (lx : Lexer) : Agree lx.lineString lx.bare.lineString := by
  simp only [lineString, show lx.bare.cursor = lx.cursor.bare from rfl]
  cases hread : readContent 1 lx.cursor with
  | error e =>
    obtain ⟨e', hread'⟩ := readContent_bare_error hread
    rw [hread']
    exact .fail (fails_error _) (fails_error _)
  | ok result =>
    obtain ⟨text, c⟩ := result
    rw [readContent_bare hread]
    dsimp only
    split
    · rename_i rest hrest
      rw [Cursor.rest_bare hrest (by simp [Cursor.atLineEnd, hrest])]
      exact .ok _ _
    · rename_i rest hrest
      rw [Cursor.rest_bare hrest (by simp [Cursor.atLineEnd, hrest])]
      exact .ok _ _
    · rename_i hhole hclose
      split <;> rename_i hrest
      · exact absurd hrest (Cursor.bare_rest_ne (by decide) hhole _)
      · exact absurd hrest (Cursor.bare_rest_ne (by decide) hclose _)
      · exact .fail (fails_error _) (fails_error _)

private theorem readContent_of_atLineEnd (hend : c.atLineEnd = true) (quotes : Nat) :
    readContent quotes c = .ok ([], c) := by
  have hcontent : content quotes c.column c.rest = .ok ([], c.column, c.rest) := by
    unfold Cursor.atLineEnd at hend
    split at hend <;> rename_i hrest
    · rw [hrest]
      rfl
    · rename_i ch rest
      have hch : ch ≠ '\\' := by
        rintro rfl
        cases hend
      rw [hrest, content_of_ne hch, if_pos (by simp [hend])]
  rw [readContent, hcontent]

/-- A string that spans lines is not closed where only a last comment is left. -/
theorem fails_blockContent (lx : Lexer) (string : BlockString) (hnil : c.bare.rest = []) :
    Fails (lx.blockContent string c) := by
  have hend : c.atLineEnd = true := by
    rw [← Cursor.atLineEnd_bare, Cursor.atLineEnd, hnil]
  rw [blockContent, readContent_of_atLineEnd hend]
  rcases Cursor.read?_of_bare_eq_nil hnil with hrest | ⟨comment, next, hrest, hread, hnext⟩
  · simp only [hrest]
    exact fails_error _
  · simp only [hrest, hread]
    exact fails_ok (unfinished_push hnext)

private theorem blockContent_bare (lx : Lexer) (string : BlockString) (c : Cursor) :
    Agree (lx.blockContent string c) (lx.bare.blockContent string c.bare) := by
  rw [blockContent, blockContent]
  cases hcontent : readContent string.quotes c with
  | error e =>
    obtain ⟨e', hcontent'⟩ := readContent_bare_error hcontent
    rw [hcontent']
    exact .fail (fails_error _) (fails_error _)
  | ok result =>
    obtain ⟨text, d⟩ := result
    rw [readContent_bare hcontent]
    dsimp only
    split
    · rename_i hrest
      rw [Cursor.bare_of_nil hrest, hrest]
      exact .fail (fails_error _) (fails_error _)
    · rename_i rest hrest
      rw [Cursor.rest_bare hrest (by simp [Cursor.atLineEnd, hrest])]
      exact .ok _ _
    · rename_i rest hrest
      have hdrop := drop_bare (startsWithQuotes_of_readContent hcontent hrest)
      rw [show d.bare.rest.drop string.quotes = _ from hdrop,
        Cursor.rest_bare hrest (by simp [Cursor.atLineEnd, hrest])]
      exact .ok _ _
    · rename_i hnil hhole hclose
      cases hread : d.read? with
      | none => exact absurd (Cursor.rest_eq_nil_of_read? hread) hnil
      | some result =>
        obtain ⟨x, next⟩ := result
        rcases Cursor.read?_bare hread with ⟨hnil', hnext, -⟩ | hread'
        · rw [hnil']
          exact .fail (fails_ok (unfinished_push hnext)) (fails_error _)
        · dsimp only
          split <;> rename_i hrest
          · exact absurd hrest (Cursor.rest_ne_nil_of_read? hread')
          · exact absurd hrest (Cursor.bare_rest_ne (by decide) hhole _)
          · exact absurd hrest (Cursor.bare_rest_ne (by decide) hclose _)
          · rw [hread']
            exact .ok _ _

/-! ### Steps -/

/-- A step fails, or it comes to the end of the source in a string or in a hole. -/
def StepFails : LexerStep → Prop
  | .more _ next => next.Unfinished
  | .done _ => False
  | .fail _ _ => True

/-- A step does the same in a text and in the text without comments, or it fails in both. -/
inductive StepAgree : LexerStep → LexerStep → Prop
  | more (ts : List Token) (next : Lexer) : StepAgree (.more ts next) (.more ts next.bare)
  | fail {s s' : LexerStep} (h : StepFails s) (h' : StepFails s') : StepAgree s s'

theorem Fails.stepTo {r : Except SyntaxError (List Token × Lexer)} (h : Fails r) (lx : Lexer)
    (before : List Token) : StepFails (stepTo lx before r) := by
  cases r with
  | error e => trivial
  | ok result => exact h result.1 result.2 rfl

theorem Agree.stepTo {r r' : Except SyntaxError (List Token × Lexer)} (h : Agree r r')
    (lx : Lexer) (before : List Token) :
    StepAgree (stepTo lx before r) (stepTo lx.bare before r') := by
  cases h with
  | ok ts next => exact .more _ _
  | fail h h' => exact .fail (h.stepTo lx before) (h'.stepTo lx.bare before)

/-- A string that spans lines is not closed where only blank lines and comments are left. -/
theorem fails_blockString {string : BlockString} {level : Nat}
    (hstart : lx.cursor.atLineStart = true)
    (hindent : lx.cursor.readIndent (some string.baseline) = (.ok level, d))
    (hnil : d.bare.rest = []) : Fails (lx.blockString string).2 := by
  unfold blockString
  split
  · unfold blockIndentation
    rw [hindent]
    dsimp only
    by_cases hlevel : (d.canRead && level != string.baseline) = true
    · rw [if_pos hlevel]
      exact fails_error _
    · rw [if_neg hlevel]
      exact fails_blockContent _ _ hnil
  · rename_i hread
    have hrest : lx.cursor.rest = [] := by simpa [hstart, Cursor.canRead] using hread
    refine fails_blockContent _ _ ?_
    rw [Cursor.bare_of_nil hrest]
    exact hrest

/-- The indentation of a line of a string that spans lines is the same, if there is such a line. -/
theorem blockIndentation_bare {string : BlockString} {r : Except SyntaxError Nat}
    (hindent : c.readIndent (some string.baseline) = (r, d)) (hne : d.bare.rest ≠ [])
    (hindent' : c.bare.readIndent (some string.baseline) = (r, d.bare)) :
    blockIndentation string c.bare = ((blockIndentation string c).1,
      (blockIndentation string c).2.map fun (string', e) => (string', e.bare)) := by
  obtain ⟨hcan, hcan'⟩ := Cursor.canRead_of_bare hne
  rw [blockIndentation, blockIndentation, hindent, hindent']
  cases r with
  | error e => rfl
  | ok level =>
    dsimp only
    rw [hcan, hcan']
    by_cases hlevel : (true && level != string.baseline) = true
    · rw [if_pos hlevel, if_pos hlevel]
      rfl
    · rw [if_neg hlevel, if_neg hlevel]
      rfl

private theorem blockString_bare (lx : Lexer) (string : BlockString) :
    StepAgree (stepTo lx (lx.blockString string).1 (lx.blockString string).2)
      (stepTo lx.bare (lx.bare.blockString string).1 (lx.bare.blockString string).2) := by
  have hcursor : lx.bare.cursor = lx.cursor.bare := rfl
  have hstart' : lx.cursor.bare.atLineStart = lx.cursor.atLineStart := rfl
  cases hstart : lx.cursor.atLineStart with
  | false =>
    rw [blockString, blockString, hcursor, hstart', hstart]
    exact (blockContent_bare lx string lx.cursor).stepTo lx []
  | true =>
    obtain ⟨r, d, hindent⟩ : ∃ r d, lx.cursor.readIndent (some string.baseline) = (r, d) :=
      ⟨_, _, rfl⟩
    rcases Cursor.readIndent_bare hindent with
      ⟨hne, hindent'⟩ | ⟨hnil, ⟨level, rfl⟩, -, e, hindent', hnil'⟩
    · obtain ⟨hread, hread'⟩ :=
        Cursor.canRead_of_bare (Cursor.rest_ne_nil_of_readIndent hindent' hne)
      rw [blockString, blockString, hcursor, hstart', hstart, hread, hread',
        blockIndentation_bare hindent hne hindent']
      rcases blockIndentation string lx.cursor with ⟨texts, e | ⟨string', e⟩⟩
      · exact .fail trivial trivial
      · exact (blockContent_bare lx string' e).stepTo lx texts
    · have hfails := fails_blockString hstart hindent hnil
      have hfails' : Fails (lx.bare.blockString string).2 :=
        fails_blockString hstart hindent' (by rwa [Cursor.bare_of_nil hnil'])
      exact .fail (hfails.stepTo _ _) (hfails'.stepTo _ _)

/-- In a hole or before more code, a step in code does the same. -/
theorem codeStep_bare (hne : lx.cursor.skipBlanks.bare.rest ≠ []) (before : List Token) :
    StepAgree (codeStep lx before) (codeStep lx.bare before) := by
  have hrest : lx.cursor.bare.rest ≠ [] := by
    intro hnil
    rw [← Cursor.skipBlanks_bare, Cursor.skipBlanks, Cursor.takeWhile, hnil] at hne
    exact hne rfl
  obtain ⟨hread, hread'⟩ := Cursor.canRead_of_bare hrest
  rw [codeStep, codeStep, if_pos hread, if_pos (show lx.bare.cursor.canRead = true from hread')]
  exact (code_bare hne).stepTo lx before

private theorem fails_codeStep (hmode : lx.mode = .hole)
    (hnil : lx.cursor.skipBlanks.bare.rest = [])
    (before : List Token) : StepFails (codeStep lx before) := by
  unfold codeStep
  split
  · exact (fails_code hmode hnil).stepTo lx before
  · rw [finish, if_neg (by simp [hmode])]
    trivial

/-- The indentation of a line of code is the same, if there is such a line. -/
theorem lineIndentation_bare {r : Except SyntaxError Nat}
    (hindent : lx.cursor.readIndent none = (r, d)) (hne : d.bare.rest ≠ [])
    (hindent' : lx.cursor.bare.readIndent none = (r, d.bare)) :
    lx.bare.lineIndentation = (lx.lineIndentation.1, lx.lineIndentation.2.map bare) := by
  obtain ⟨hcan, hcan'⟩ := Cursor.canRead_of_bare hne
  rw [lineIndentation, lineIndentation, hindent,
    show lx.bare.cursor.readIndent none = (r, d.bare) from hindent']
  cases r with
  | error e => rfl
  | ok level =>
    have hindentation : lx.bare.indentation = lx.indentation := rfl
    have hindents : lx.bare.indents = lx.indents := rfl
    simp only [hcan, hcan', hindentation, hindents, Bool.not_true, Bool.false_eq_true, if_false]
    by_cases hwider : lx.indentation < level
    · rw [if_pos hwider, if_pos hwider]
      rfl
    · rw [if_neg hwider, if_neg hwider]
      by_cases hopen : (closeBlocks level lx.indents).2.headD 0 = level
      · rw [if_pos hopen, if_pos hopen]
        rfl
      · rw [if_neg hopen, if_neg hopen]
        rfl

/-! ### The end of the source -/

/-- The tokens that close the open blocks and end the source, at a place. -/
def closing (lx : Lexer) (place : Span) : List Token :=
  lx.indents.dropLast.map (fun _ => .atSpan .dedent "" place) ++ [.atSpan .sourceEnd "" place]

/-- Where the source ends does not matter. -/
theorem sameUpToEnd_closing (lx : Lexer) (place place' : Span) :
    SameUpToEnd (lx.closing place) (lx.closing place') := by
  have hclosing : ∀ place, ∀ t ∈ lx.closing place, t.isClosing = true := by
    intro place t ht
    rcases List.mem_append.mp ht with ht | ht
    · obtain ⟨_, -, rfl⟩ := List.mem_map.mp ht
      rfl
    · rw [List.mem_singleton.mp ht]
      rfl
  refine ⟨by simp [closing, Token.atSpan], by simp [closing, Token.atSpan], ?_⟩
  rw [List.rdropWhile_eq_nil_iff.mpr (hclosing place),
    List.rdropWhile_eq_nil_iff.mpr (hclosing place')]

theorem Unfinished.fault (h : lx.Unfinished) : lx.tokens.fault ≠ none := by
  obtain ⟨hnil, hmode⟩ := h
  have hfails : ∃ ts e, lx.step = .fail ts e := by
    have hend : lx.cursor.atLineEnd = true := by simp [Cursor.atLineEnd, hnil]
    have hread : lx.cursor.canRead = false := by simp [Cursor.canRead, hnil]
    unfold step
    cases hmode' : lx.mode with
    | code => exact absurd hmode' hmode
    | lineString =>
      simp only [lineString, readContent_of_atLineEnd hend, hnil]
      exact ⟨_, _, rfl⟩
    | blockString string =>
      simp only [blockString, blockContent, hread, Bool.and_false, Bool.false_eq_true, if_false,
        readContent_of_atLineEnd hend, hnil]
      exact ⟨_, _, rfl⟩
    | hole =>
      simp only [codeStep, finish, hread, hmode', Bool.false_eq_true, if_false, reduceCtorEq]
      exact ⟨_, _, rfl⟩
  obtain ⟨ts, e, hstep⟩ := hfails
  rw [tokens_eq, hstep]
  exact Option.some_ne_none e

theorem StepFails.fault (h : StepFails lx.step) : lx.tokens.fault ≠ none := by
  rw [tokens_eq]
  cases hstep : lx.step with
  | done ts =>
    rw [hstep] at h
    exact h.elim
  | fail ts e => exact Option.some_ne_none e
  | more ts next =>
    rw [hstep] at h
    exact Unfinished.fault h

/-- At the end of the source in code, an open line is closed first. -/
theorem tokens_of_nil (hmode : lx.mode = .code) (hnil : lx.cursor.rest = []) :
    lx.tokens = ⟨(if lx.lineOpen then [.atSpan .lineEnd "\n" lx.cursor.point] else [])
      ++ lx.closing lx.cursor.point, none⟩ := by
  have hread : lx.cursor.canRead = false := by simp [Cursor.canRead, hnil]
  rw [tokens_eq, step, hmode]
  simp [hread, codeStep, finish, hmode, closing]

/-- A step that comes to the end of the source in code is the last one but for the end itself. -/
theorem tokens_of_last_step {last : Lexer} (hstep : lx.step = .more ts last)
    (hmode : last.mode = .code) (hnil : last.cursor.rest = []) :
    lx.tokens = ⟨ts ++ ((if last.lineOpen then [.atSpan .lineEnd "\n" last.cursor.point] else [])
      ++ last.closing last.cursor.point), none⟩ := by
  rw [tokens_eq, hstep]
  dsimp only
  rw [tokens_of_nil hmode hnil]
  rfl

/-- After the last line come the blank lines up to the end of the source. -/
theorem tokens_of_blankLines {level : Nat} (hmode : lx.mode = .code)
    (hstart : lx.cursor.atLineStart = true) (hopen : lx.lineOpen = false)
    (hindent : lx.cursor.readIndent none = (.ok level, d)) (hnil : d.rest = []) :
    lx.tokens = ⟨lx.closing d.point, none⟩ := by
  cases hread : lx.cursor.canRead with
  | false =>
    have hrest : lx.cursor.rest = [] := by simpa [Cursor.canRead] using hread
    rw [Cursor.readIndent_of_nil hrest] at hindent
    obtain ⟨-, rfl⟩ := Prod.mk.inj hindent
    rw [tokens_of_nil hmode hrest, hopen]
    rfl
  | true =>
    have hend : d.canRead = false := by simp [Cursor.canRead, hnil]
    have hmargin : lx.lineIndentation = ([], .ok (lx.moveTo d)) := by
      simp [lineIndentation, hindent, hend]
    have hmode' : (lx.moveTo d).mode = .code := hmode
    rw [tokens_eq, step, hmode]
    simp only [hstart, hread, hmargin, Bool.and_self, if_true, codeStep,
      show (lx.moveTo d).cursor.canRead = false from hend, Bool.false_eq_true, if_false, finish,
      if_pos hmode', show (lx.moveTo d).lineOpen = false from hopen]
    rfl

/-- The last line is closed where only blanks and a comment are left, and then the source ends. -/
theorem tokens_of_lastLine (hmode : lx.mode = .code) (hstart : lx.cursor.atLineStart = false)
    (hopen : lx.lineOpen = true) (hnil : lx.cursor.skipBlanks.bare.rest = []) :
    ∃ place, lx.tokens
      = ⟨.atSpan .lineEnd "\n" lx.cursor.skipBlanks.point :: lx.closing place, none⟩ := by
  cases hread : lx.cursor.canRead with
  | false =>
    have hrest : lx.cursor.rest = [] := by simpa [Cursor.canRead] using hread
    have hblank : lx.cursor.skipBlanks.point = lx.cursor.point := by
      simp [Cursor.skipBlanks, Cursor.takeWhile, Cursor.forward, Cursor.point, hrest]
    refine ⟨lx.cursor.point, ?_⟩
    rw [tokens_of_nil hmode hrest, hopen, hblank]
    rfl
  | true =>
    have hstep : lx.step = stepTo lx [] lx.code := by
      rw [step, hmode]
      simp only [hstart, Bool.false_and, Bool.false_eq_true, if_false, codeStep, if_pos hread]
    -- Without a comment the end of the source closes the line, else the step at the comment does.
    rcases Cursor.read?_of_bare_eq_nil hnil with hrest | ⟨comment, next, hrest, hnext, hnext'⟩
    · have hcode : lx.code = .ok ([], lx.moveTo lx.cursor.skipBlanks) := by
        simp only [code, hrest]
      have hmore : lx.step = .more [] { lx.moveTo lx.cursor.skipBlanks with lineOpen := true } := by
        rw [hstep, hcode, stepTo, hopen]
        rfl
      exact ⟨lx.cursor.skipBlanks.point, tokens_of_last_step hmore hmode hrest⟩
    · have hend : lx.cursor.skipBlanks.atLineEnd = true := by simp [Cursor.atLineEnd, hrest]
      have hcode : lx.code
          = .ok ([.atSpan .lineEnd "\n" lx.cursor.skipBlanks.point], lx.moveTo next) := by
        simp [code, hrest, hend, hmode, hnext]
      have hmore : lx.step = .more [.atSpan .lineEnd "\n" lx.cursor.skipBlanks.point]
          { lx.moveTo next with lineOpen := false } := by
        rw [hstep, hcode, stepTo]
        rfl
      exact ⟨next.point, tokens_of_last_step hmore hmode hnext'⟩

/-- After the indentation of a line comes its first token. -/
theorem skipBlanks_of_readIndent {level : Nat} (hindent : c.readIndent none = (.ok level, d))
    (hne : d.rest ≠ []) : d.skipBlanks = d := by
  generalize hlimit : (none : Option Nat) = limit at hindent
  fun_induction Cursor.readIndent limit c with
  | case1 c hnone =>
    obtain ⟨-, rfl⟩ := Prod.mk.inj hindent
    exact absurd (Cursor.rest_eq_nil_of_read? hnone) hne
  | case2 c _ _ _ _ hless =>
    subst hlimit
    cases hless
  | case3 _ _ _ _ _ _ _ ih | case5 _ _ _ _ _ _ _ _ _ _ _ ih | case6 _ _ _ _ _ _ _ _ _ _ _ ih =>
    exact ih hindent
  | case4 c _ _ _ _ _ _ hpeek =>
    obtain ⟨-, rfl⟩ := Prod.mk.inj hindent
    exact absurd (by simpa [Cursor.peek] using hpeek) hne
  | case7 => cases (Prod.mk.inj hindent).1
  | case8 c _ _ _ _ _ _ ch hpeek hblank =>
    obtain ⟨-, rfl⟩ := Prod.mk.inj hindent
    obtain ⟨rest, hrest⟩ : ∃ rest, c.rest = ch :: rest := by
      simpa [Cursor.peek, List.head?_eq_some_iff] using hpeek
    exact Cursor.skipBlanks_eq_self hrest (by simpa using hblank)

/-- Outside of strings, a step at the start of a line. -/
theorem step_bare_lineStart (hmode : lx.mode = .code) (hstart : lx.cursor.atLineStart = true)
    (hopen : lx.lineOpen = false) :
    StepAgree lx.step lx.bare.step ∨ EndsAlike lx.tokens lx.bare.tokens := by
  have hcursor : lx.bare.cursor = lx.cursor.bare := rfl
  have hstart' : lx.cursor.bare.atLineStart = lx.cursor.atLineStart := rfl
  obtain ⟨r, d, hindent⟩ : ∃ r d, lx.cursor.readIndent none = (r, d) := ⟨_, _, rfl⟩
  rcases Cursor.readIndent_bare hindent with
    ⟨hne, hindent'⟩ | ⟨hnil, ⟨level, rfl⟩, hrest, e, hindent', hrest'⟩
  · left
    obtain ⟨hread, hread'⟩ :=
      Cursor.canRead_of_bare (Cursor.rest_ne_nil_of_readIndent hindent' hne)
    rw [step, step, mode_bare, hmode, hcursor, hstart', hstart, hread, hread',
      lineIndentation_bare hindent hne hindent']
    cases hmargin : lx.lineIndentation with
    | mk before result =>
      cases result with
      | error e => exact .fail trivial trivial
      | ok next =>
        -- The step goes on at the first token of the line.
        refine codeStep_bare ?_ before
        have hcan := (Cursor.canRead_of_bare hne).1
        rcases lineIndentation_cases hmargin with hmoved | ⟨level, c, hlevel, hend, -⟩
        · obtain ⟨level, hlevel⟩ :
              ∃ level, lx.cursor.readIndent none = (.ok level, next.cursor) := by
            cases hmoved with
            | wider hlevel | narrower hlevel => exact ⟨_, hlevel⟩
          obtain ⟨-, rfl⟩ := Prod.mk.inj (hindent.symm.trans hlevel)
          rwa [skipBlanks_of_readIndent hlevel (by simpa [Cursor.canRead] using hcan)]
        · obtain ⟨-, rfl⟩ := Prod.mk.inj (hindent.symm.trans hlevel)
          rw [hcan] at hend
          cases hend
  · right
    rw [tokens_of_blankLines hmode hstart hopen hindent (hrest rfl),
      tokens_of_blankLines (show lx.bare.mode = .code from hmode) hstart hopen hindent' hrest']
    exact .ends (sameUpToEnd_closing lx _ _)

/-- Outside of strings, a step within a line. -/
theorem step_bare_withinLine (hmode : lx.mode = .code) (hstart : lx.cursor.atLineStart = false)
    (hopen : lx.lineOpen = true) :
    StepAgree lx.step lx.bare.step ∨ EndsAlike lx.tokens lx.bare.tokens := by
  by_cases hnil : lx.cursor.skipBlanks.bare.rest = []
  · right
    obtain ⟨place, htokens⟩ := tokens_of_lastLine hmode hstart hopen hnil
    obtain ⟨place', htokens'⟩ :=
      tokens_of_lastLine (show lx.bare.mode = .code from hmode) hstart hopen
        (bare_skipBlanks_eq_nil hnil)
    rw [htokens, htokens', skipBlanks_bare]
    exact .ends ((sameUpToEnd_closing lx place place').append
      [.atSpan .lineEnd "\n" lx.cursor.skipBlanks.point])
  · left
    rw [step, step, mode_bare, hmode, hstart,
      show lx.bare.cursor.atLineStart = false from hstart]
    exact codeStep_bare hnil []

/-- A step does the same in a text and in the text without comments, or fails in both, or it is
one of those that close the source in both. -/
theorem step_bare (hopen : lx.mode = .code → lx.lineOpen = !lx.cursor.atLineStart) :
    StepAgree lx.step lx.bare.step ∨ EndsAlike lx.tokens lx.bare.tokens := by
  cases hmode : lx.mode with
  | lineString =>
    left
    rw [step, step, mode_bare, hmode]
    exact (lineString_bare lx).stepTo lx []
  | blockString string =>
    left
    rw [step, step, mode_bare, hmode]
    exact blockString_bare lx string
  | hole =>
    left
    rw [step, step, mode_bare, hmode]
    by_cases hnil : lx.cursor.skipBlanks.bare.rest = []
    · exact .fail (fails_codeStep hmode hnil []) (fails_codeStep
        (show lx.bare.mode = .hole from hmode) (bare_skipBlanks_eq_nil hnil) [])
    · exact codeStep_bare hnil []
  | code =>
    cases hstart : lx.cursor.atLineStart with
    | true => exact step_bare_lineStart hmode hstart (by rw [hopen hmode, hstart]; rfl)
    | false => exact step_bare_withinLine hmode hstart (by rw [hopen hmode, hstart]; rfl)

variable {text : String}

/-- Outside of strings a line is open unless the lexer stands at its start. -/
theorem LaidOut.lineOpen {acc : List Token} (h : LaidOut text acc lx) (hmode : lx.mode = .code) :
    lx.lineOpen = !lx.cursor.atLineStart := by
  obtain ⟨lines, margin, body, bs, rfl, h⟩ := h
  obtain rfl := h.nested.of_code hmode
  rw [h.lineOpen, Cursor.atLineStart]
  by_cases hbody : body = []
  · simp [hbody, (h.between hbody).2.2]
  · have hcolumn := h.within hbody rfl
    rw [List.isEmpty_eq_false_iff.mpr hbody, beq_false_of_ne (Nat.ne_of_gt hcolumn)]

/-- A text has the tokens of the text without comments. -/
theorem LaidOut.endsAlike {lx : Lexer} {acc : List Token} (h : LaidOut text acc lx) :
    EndsAlike lx.tokens lx.bare.tokens := by
  rcases step_bare h.lineOpen with hagree | hends
  · generalize hstep : lx.step = s at hagree
    generalize hstep' : lx.bare.step = s' at hagree
    cases hagree with
    | more ts next =>
      have hless := remaining_lt_of_step hstep
      have hrest := (h.step hstep).endsAlike
      rw [tokens_eq lx, tokens_eq lx.bare, hstep, hstep']
      exact hrest.prepend ts
    | fail hfails hfails' =>
      subst hstep hstep'
      exact .faults hfails.fault hfails'.fault
  · exact hends
termination_by lx.remaining

end Lexer

/-- Texts that are the same without comments have tokens that are the same up to the end. -/
theorem endsAlike_of_bare_eq {text text' : String}
    (h : bare false (normalizeBreaks text'.toList) = bare false (normalizeBreaks text.toList)) :
    EndsAlike (tokensOf text) (tokensOf text') := by
  have hbare : (Lexer.ofText text').bare = (Lexer.ofText text).bare := by
    simp only [Lexer.bare, Lexer.ofText, Cursor.bare, Cursor.ofText, h]
  have hends' := (Lexer.laidOut_ofText text').endsAlike
  rw [hbare] at hends'
  exact (Lexer.laidOut_ofText text).endsAlike.trans hends'.symm

/-- The kinds of its line breaks make no difference to the tokens of a text. Comments appended to
its lines make none to whether it has tokens, to their kinds and texts, and to the places of the
tokens before those that close the last blocks and end the source. -/
theorem tokenize_annotated (text : String) :
    tokenize (String.ofList (normalizeBreaks text.toList)) = tokenize text ∧
      ∀ text', Annotated text text' →
        ((∃ us, tokenize text' = .ok us) ↔ ∃ ts, tokenize text = .ok ts) ∧
          ∀ ts us, tokenize text = .ok ts → tokenize text' = .ok us → SameUpToEnd ts us := by
  constructor
  · have hstart : Lexer.ofText (String.ofList (normalizeBreaks text.toList))
        = Lexer.ofText text := by
      rw [Lexer.ofText, Cursor.ofText, String.toList_ofList,
        normalizeBreaks_eq_self eq_of_mem_normalizeBreaks]
      rfl
    rw [tokenize, tokensOf, hstart]
    rfl
  · intro text' hannotated
    exact (endsAlike_of_bare_eq (bare_eq_of_annotated hannotated)).toExcept

/-- A string that spans lines in a block, with several kinds of line breaks. -/
def mixedBreaks : String := "a = 1\r\nif a\u2028  << \"\"\"\n  b\r\r  \"\"\""

/-- The same lines with comments and line feeds. -/
def allCommented : String := "a = 1#x\nif a# y\n  << \"\"\"# z\n  b# \"\n#\n  \"\"\"#"

/-- With a comment on every line the text has the same tokens, and ends on a later line. -/
theorem tokenize_annotated_allCommented :
    Annotated mixedBreaks allCommented ∧ ∃ ts us, tokenize mixedBreaks = .ok ts ∧
      tokenize allCommented = .ok us ∧ ts ≠ us ∧ SameUpToEnd ts us := by
  have hlines : lines mixedBreaks.toList
      = ["a = 1", "if a", "  << \"\"\"", "  b", "", "  \"\"\""].map String.toList := by
    decide +kernel
  have hlines' : lines allCommented.toList
      = ["a = 1#x", "if a# y", "  << \"\"\"# z", "  b# \"", "#", "  \"\"\"#"].map
        String.toList := by
    decide +kernel
  have hannotated : Annotated mixedBreaks allCommented := by
    rw [Annotated, hlines, hlines']
    exact .cons (.inr ⟨_, rfl⟩) (.cons (.inr ⟨_, rfl⟩) (.cons (.inr ⟨_, rfl⟩)
      (.cons (.inr ⟨_, rfl⟩) (.cons (.inr ⟨_, rfl⟩) (.cons (.inr ⟨_, rfl⟩) .nil)))))
  have hdiffer : (tokenize mixedBreaks).toOption ≠ (tokenize allCommented).toOption := by
    decide +kernel
  have hok : (tokenize mixedBreaks).toOption.isSome = true := by decide +kernel
  obtain ⟨hiff, hsame⟩ := (tokenize_annotated mixedBreaks).2 allCommented hannotated
  cases hts : tokenize mixedBreaks with
  | error e =>
    rw [hts] at hok
    cases hok
  | ok ts =>
    obtain ⟨us, hus⟩ := hiff.mpr ⟨ts, hts⟩
    refine ⟨hannotated, ts, us, rfl, hus, ?_, hsame ts us hts hus⟩
    rintro rfl
    exact hdiffer (by rw [hts, hus])

end DialogScript
