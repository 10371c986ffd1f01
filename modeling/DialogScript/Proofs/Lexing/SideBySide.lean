import DialogScript.Proofs.Lexing.Annotations
import Mathlib.Order.Monotone.Basic

/-!
# Two texts side by side

A text can be laid out in another way and hold the same tokens. Here a text and another one are
read side by side. Within a line the two hold the same characters (`AgreeOnLine`); a `Relayout`
says how they are related from the start of a line on, where the widths of their indentation
may differ. What reads within a line then reads the same from both (`Relayout.Results`), and leaves
the two lexers side by side again: within the line, or at the start of the next one
(`Relayout.Beside`).
-/

namespace DialogScript

/-- What a token is, wherever it stands. -/
def Token.lexeme (t : Token) : TokenKind × String := (t.kind, t.text)

/-- Two lists of tokens are the same but for the places of the tokens. -/
def SameLexemes (ts us : List Token) : Prop := us.map Token.lexeme = ts.map Token.lexeme

namespace SameLexemes

variable {ts us ts' us' : List Token}

theorem refl (ts : List Token) : SameLexemes ts ts := Eq.refl _

theorem append (h : SameLexemes ts us) (h' : SameLexemes ts' us') :
    SameLexemes (ts ++ ts') (us ++ us') := by
  simp only [SameLexemes, List.map_append] at h h' ⊢
  rw [h, h']

/-- Tokens at as many places. -/
theorem of_length {α β : Type} {xs : List α} {ys : List β} (h : ys.length = xs.length)
    {f : α → Token} {g : β → Token} {l : TokenKind × String} (hf : ∀ x, (f x).lexeme = l)
    (hg : ∀ y, (g y).lexeme = l) : SameLexemes (xs.map f) (ys.map g) := by
  have hxs : Token.lexeme ∘ f = fun _ => l := funext hf
  have hys : Token.lexeme ∘ g = fun _ => l := funext hg
  rw [SameLexemes, List.map_map, List.map_map, hxs, hys, List.map_const', List.map_const', h]

theorem lineOpenAfter (h : SameLexemes ts us) (isOpen : Bool) :
    Lexer.lineOpenAfter isOpen us = Lexer.lineOpenAfter isOpen ts := by
  induction ts generalizing us isOpen with
  | nil =>
    obtain rfl : us = [] := List.map_eq_nil_iff.mp h
    rfl
  | cons t ts ih =>
    cases us with
    | nil => cases h
    | cons u us =>
      obtain ⟨hhead, htail⟩ := List.cons.inj h
      have hkind : u.kind = t.kind := congrArg Prod.fst hhead
      simpa [Lexer.lineOpenAfter, hkind] using ih htail _

/-- Two listings with the same lexemes, of which both come to a fault or neither does. -/
theorem toExcept {l l' : Listing Token SyntaxError} (hitems : SameLexemes l.items l'.items)
    (hfault : l'.fault.isSome = l.fault.isSome) :
    ((∃ us, l'.toExcept = .ok us) ↔ ∃ ts, l.toExcept = .ok ts) ∧
      ∀ ts us, l.toExcept = .ok ts → l'.toExcept = .ok us → SameLexemes ts us := by
  obtain ⟨items, fault⟩ := l
  obtain ⟨items', fault'⟩ := l'
  cases fault with
  | none =>
    obtain rfl : fault' = none := by simpa using hfault
    refine ⟨⟨fun _ => ⟨items, rfl⟩, fun _ => ⟨items', rfl⟩⟩, ?_⟩
    rintro ts us hts hus
    rwa [← Except.ok.inj hts, ← Except.ok.inj hus]
  | some e =>
    obtain ⟨e', rfl⟩ : ∃ e', fault' = some e' := Option.isSome_iff_exists.mp hfault
    refine ⟨⟨?_, ?_⟩, ?_⟩
    · rintro ⟨us, hus⟩
      cases hus
    · rintro ⟨ts, hts⟩
      cases hts
    · rintro ts us hts
      cases hts

end SameLexemes

/-! ### Texts that agree on a line -/

namespace Text

/-- Two texts hold the same characters up to the end of the line, and what comes after the line
is related. -/
inductive AgreeOnLine (below : List Char → List Char → Prop) : List Char → List Char → Prop
  | nil : AgreeOnLine below [] []
  | lineEnd {cs ds : List Char} (h : below cs ds) : AgreeOnLine below ('\n' :: cs) ('\n' :: ds)
  | cons {ch : Char} {cs ds : List Char} (hch : ch ≠ '\n') (h : AgreeOnLine below cs ds) :
      AgreeOnLine below (ch :: cs) (ch :: ds)

namespace AgreeOnLine

variable {below : List Char → List Char → Prop} {cs ds rest : List Char} {ch : Char}

theorem eq_nil (h : AgreeOnLine below cs ds) (hcs : cs = []) : ds = [] := by
  subst hcs
  cases h
  rfl

theorem ne_nil (h : AgreeOnLine below cs ds) (hcs : cs ≠ []) : ds ≠ [] := by
  rintro rfl
  cases h
  exact hcs rfl

private theorem ne_cons (h : AgreeOnLine below cs ds) (hcs : ∀ rest, cs ≠ ch :: rest)
    (rest : List Char) :
    ds ≠ ch :: rest := by
  rintro rfl
  cases h with
  | lineEnd => exact hcs _ rfl
  | cons => exact hcs _ rfl

theorem exists_cons (h : AgreeOnLine below (ch :: rest) ds) : ∃ rest', ds = ch :: rest' ∧
    (ch ≠ '\n' → AgreeOnLine below rest rest') := by
  cases h with
  | lineEnd h => exact ⟨_, rfl, fun hch => absurd rfl hch⟩
  | cons _ h => exact ⟨_, rfl, fun _ => h⟩

theorem exists_lineEnd (h : AgreeOnLine below ('\n' :: rest) ds) :
    ∃ rest', ds = '\n' :: rest' ∧ below rest rest' := by
  cases h with
  | lineEnd h => exact ⟨_, rfl, h⟩
  | cons hch _ => exact absurd rfl hch

theorem append {own : List Char} (hown : '\n' ∉ own) (h : AgreeOnLine below cs ds) :
    AgreeOnLine below (own ++ cs) (own ++ ds) := by
  induction own with
  | nil => exact h
  | cons ch own ih =>
    rw [List.mem_cons, not_or] at hown
    exact .cons (Ne.symm hown.1) (ih hown.2)

/-- A run of characters of a class ends before the end of the line. -/
theorem run {p : Char → Bool} (hp : p '\n' = false) (h : AgreeOnLine below cs ds) :
    ds.takeWhile p = cs.takeWhile p ∧ AgreeOnLine below (cs.dropWhile p) (ds.dropWhile p) := by
  induction h with
  | nil => exact ⟨rfl, .nil⟩
  | lineEnd h => simpa [hp] using AgreeOnLine.lineEnd h
  | @cons ch cs ds hch h ih =>
    cases hpch : p ch with
    | true => simpa [hpch] using ih
    | false => simpa [hpch] using AgreeOnLine.cons hch h

theorem startsWithQuotes (h : AgreeOnLine below cs ds) (quotes : Nat) :
    Lexer.startsWithQuotes quotes ds = Lexer.startsWithQuotes quotes cs := by
  induction h generalizing quotes with
  | nil => rfl
  | lineEnd h => cases quotes <;> rfl
  | cons hch h ih =>
    cases quotes with
    | zero => rfl
    | succ quotes =>
      have hrest := ih quotes
      simp only [Lexer.startsWithQuotes] at hrest ⊢
      simp [List.replicate_succ, hrest]

/-- What stands on the line is dropped from both texts. -/
theorem drop {own : List Char} (hown : '\n' ∉ own) (hcs : cs = own ++ rest)
    (h : AgreeOnLine below cs ds) : AgreeOnLine below rest (ds.drop own.length) := by
  induction own generalizing cs ds with
  | nil =>
    rw [hcs] at h
    exact h
  | cons ch own ih =>
    rw [List.mem_cons, not_or] at hown
    rw [hcs, List.cons_append] at h
    obtain ⟨rest', rfl, hrest⟩ := h.exists_cons
    exact ih hown.2 rfl (hrest (Ne.symm hown.1))

/-- A sign is recognized by two characters of its line. -/
theorem sign? (h : AgreeOnLine below cs ds) : Lexer.sign? ds = Lexer.sign? cs := by
  cases h with
  | nil => rfl
  | lineEnd h => rw [Lexer.sign?_of_lineEnd (.inl rfl), Lexer.sign?_of_lineEnd (.inl rfl)]
  | cons hch h => cases h <;> rfl

end AgreeOnLine

end Text

open Text

/-! ### Cursors -/

/-- How another layout of a text is related to it. -/
structure Relayout where
  /-- The texts from the start of a line on. -/
  lines : List Char → List Char → Prop
  /-- The indentation styles that the lines so far have fixed. -/
  styles : Option Char → Option Char → Prop
  /-- How wide a line of a given width is in the other text. -/
  width : Nat → Nat

namespace Relayout

variable {r : Relayout} {c d c' d' : Cursor}

/-- Two cursors stand within a line of the two texts, both at its first column or both past it. -/
structure Within (r : Relayout) (c d : Cursor) : Prop where
  rest : AgreeOnLine r.lines c.rest d.rest
  columns : c.column = 1 ∧ d.column = 1 ∨ 1 < c.column ∧ 1 < d.column
  styles : r.styles c.style d.style

/-- Two cursors stand at the start of a line of the two texts. -/
structure AtStart (r : Relayout) (c d : Cursor) : Prop where
  rest : r.lines c.rest d.rest
  left : c.column = 1
  right : d.column = 1
  styles : r.styles c.style d.style

namespace Within

private theorem one_le (h : r.Within c d) : 1 ≤ c.column :=
  h.columns.elim (fun hc => Nat.le_of_eq hc.1.symm) (fun hc => Nat.le_of_lt hc.1)

theorem atLineEnd (h : r.Within c d) : d.atLineEnd = c.atLineEnd := by
  have hrest := h.rest
  unfold Cursor.atLineEnd
  cases hc : c.rest with
  | nil => rw [hrest.eq_nil hc]
  | cons ch rest =>
    rw [hc] at hrest
    obtain ⟨rest', hd, -⟩ := hrest.exists_cons
    rw [hd]

theorem canRead (h : r.Within c d) : d.canRead = c.canRead := by
  have hrest := h.rest
  unfold Cursor.canRead
  cases hc : c.rest with
  | nil => rw [hrest.eq_nil hc]
  | cons ch rest =>
    rw [hc] at hrest
    obtain ⟨rest', hd, -⟩ := hrest.exists_cons
    rw [hd]
    rfl

theorem forward (h : r.Within c d) {width : Nat} {rest rest' : List Char}
    (hrest : AgreeOnLine r.lines rest rest') :
    r.Within (c.forward width rest) (d.forward width rest') where
  rest := hrest
  columns := by
    have hcolumns := h.columns
    simp only [Cursor.forward]
    omega
  styles := h.styles

theorem takeWhile (h : r.Within c d) {p : Char → Bool} (hp : p '\n' = false) :
    (d.takeWhile p).1 = (c.takeWhile p).1 ∧ r.Within (c.takeWhile p).2 (d.takeWhile p).2 := by
  obtain ⟨htake, hdrop⟩ := h.rest.run hp
  refine ⟨htake, ?_⟩
  simp only [Cursor.takeWhile, htake]
  exact h.forward hdrop

theorem skipBlanks (h : r.Within c d) : r.Within c.skipBlanks d.skipBlanks :=
  (h.takeWhile (by decide)).2

/-- At the end of the line both cursors come to the start of the next one. -/
theorem read? (h : r.Within c d) (hnil : r.lines [] []) (hend : c.atLineEnd = true) {ch : Char}
    (hread : c.read? = some (ch, c')) : ∃ d', d.read? = some (ch, d') ∧ r.AtStart c' d' := by
  have hrest := h.rest
  obtain ⟨x, rest, hc⟩ := List.exists_cons_of_ne_nil (Cursor.rest_ne_nil_of_read? hread)
  rw [hc] at hrest
  simp only [Cursor.atLineEnd, hc, Bool.or_eq_true, beq_iff_eq] at hend
  simp only [Cursor.read?, hc] at hread
  rcases hend with rfl | rfl
  · obtain ⟨rest', hd, hbelow⟩ := hrest.exists_lineEnd
    obtain ⟨rfl, rfl⟩ := Prod.mk.inj (Option.some.inj hread)
    exact ⟨d.nextLine rest', by simp [Cursor.read?, hd], hbelow, rfl, rfl, h.styles⟩
  · obtain ⟨rest', hd, hrest'⟩ := hrest.exists_cons
    obtain ⟨rfl, rfl⟩ := Prod.mk.inj (Option.some.inj hread)
    refine ⟨d.nextLine ((rest'.dropWhile (· != '\n')).drop 1), by simp [Cursor.read?, hd], ?_, rfl,
      rfl, h.styles⟩
    -- The comment goes to the end of the line in both texts.
    have hafter := ((hrest' (by decide)).run (p := (· != '\n')) (by decide)).2
    change r.lines ((rest.dropWhile (· != '\n')).drop 1) ((rest'.dropWhile (· != '\n')).drop 1)
    cases hdrop : rest.dropWhile (· != '\n') with
    | nil =>
      rw [hdrop] at hafter
      rw [hafter.eq_nil rfl]
      exact hnil
    | cons y more =>
      obtain rfl : y = '\n' := by
        have hne : rest.dropWhile (· != '\n') ≠ [] := by simp [hdrop]
        simpa [hdrop] using List.head_dropWhile_not (· != '\n') hne
      rw [hdrop] at hafter
      obtain ⟨more', hdrop', hbelow⟩ := hafter.exists_lineEnd
      rw [hdrop']
      exact hbelow

end Within

end Relayout

/-! ### States of the lexer -/

/-- Two modes are the same but for the place of a line break that waits. -/
inductive Mode.Alike : Mode → Mode → Prop
  | code : Alike .code .code
  | lineString : Alike .lineString .lineString
  | hole : Alike .hole .hole
  | blockString {s s' : BlockString} (hquotes : s'.quotes = s.quotes)
      (hbaseline : s'.baseline = s.baseline) (hpending : s'.pending.isSome = s.pending.isSome) :
      Alike (.blockString s) (.blockString s')

private theorem Mode.Alike.eq_hole_iff {m m' : Mode} (h : m.Alike m') : m' = .hole ↔ m = .hole := by
  cases h <;> simp

private theorem Mode.Alike.beq_hole {m m' : Mode} (h : m.Alike m') :
    (Mode.hole == m') = (Mode.hole == m) := by
  cases h <;> rfl

theorem Mode.Alike.eq_code_iff {m m' : Mode} (h : m.Alike m') : m' = .code ↔ m = .code := by
  cases h <;> simp

namespace Relayout

variable {r : Relayout} {place place' : Cursor → Cursor → Prop} {lx mx next next' : Lexer}
  {c d c' d' : Cursor} {ts us : List Token}

/-- Two lexers have the same modes and corresponding blocks open, and stand at related places. -/
structure Alike (r : Relayout) (place : Cursor → Cursor → Prop) (lx mx : Lexer) : Prop where
  cursor : place lx.cursor mx.cursor
  modes : List.Forall₂ Mode.Alike lx.modes mx.modes
  indents : mx.indents = lx.indents.map r.width
  lineOpen : mx.lineOpen = lx.lineOpen

namespace Alike

theorem moveTo (h : r.Alike place lx mx) (hcursor : place' c d) :
    r.Alike place' (lx.moveTo c) (mx.moveTo d) :=
  ⟨hcursor, h.modes, h.indents, h.lineOpen⟩

theorem push (h : r.Alike place lx mx) {m m' : Mode} (hm : m.Alike m') :
    r.Alike place (lx.push m) (mx.push m') :=
  ⟨h.cursor, .cons hm h.modes, h.indents, h.lineOpen⟩

theorem pop (h : r.Alike place lx mx) : r.Alike place lx.pop mx.pop := by
  refine ⟨h.cursor, ?_, h.indents, h.lineOpen⟩
  have hmodes := h.modes
  unfold Lexer.pop
  cases hlx : lx.modes with
  | nil =>
    rw [hlx] at hmodes
    rw [List.forall₂_nil_left_iff.mp hmodes]
    exact .nil
  | cons m ms =>
    rw [hlx] at hmodes
    obtain ⟨m', ms', -, htail, hmx⟩ := List.forall₂_cons_left_iff.mp hmodes
    rw [hmx]
    exact htail

theorem replaceTop (h : r.Alike place lx mx) {m m' : Mode} (hm : m.Alike m') :
    r.Alike place (lx.replaceTop m) (mx.replaceTop m') :=
  h.pop.push hm

theorem mode (h : r.Alike place lx mx) : lx.mode.Alike mx.mode := by
  have hmodes := h.modes
  unfold Lexer.mode
  generalize lx.modes = ms, mx.modes = ms' at hmodes
  cases hmodes with
  | nil => exact .code
  | cons hm _ => exact hm

private theorem contains_hole (h : r.Alike place lx mx) :
    mx.modes.contains .hole = lx.modes.contains .hole := by
  have hmodes := h.modes
  generalize lx.modes = ms, mx.modes = ms' at hmodes
  induction hmodes with
  | nil => rfl
  | cons hm _ ih => rw [List.contains_cons, List.contains_cons, ih, hm.beq_hole]

theorem indentation (h : r.Alike place lx mx) (hzero : r.width 0 = 0) :
    mx.indentation = r.width lx.indentation := by
  unfold Lexer.indentation
  rw [h.indents]
  cases lx.indents with
  | nil => exact hzero.symm
  | cons level rest => rfl

end Alike

/-- Two lexers stand side by side between two steps: at the start of a line, where neither a hole
nor a string on one line is open, or past the first column of a line. -/
inductive Beside (r : Relayout) (lx mx : Lexer) : Prop
  | start (h : r.Alike r.AtStart lx mx) (hline : lx.mode ≠ .lineString) (hhole : lx.mode ≠ .hole) :
      Beside r lx mx
  | within (h : r.Alike r.Within lx mx) (hcolumn : 1 < lx.cursor.column) : Beside r lx mx

/-- What a part of the lexer gives in the two texts: the same lexemes, with the lexers side by
side, or an error in both. -/
inductive Results (r : Relayout) :
    Except SyntaxError (List Token × Lexer) → Except SyntaxError (List Token × Lexer) → Prop
  | ok {ts us : List Token} {next next' : Lexer} (htokens : SameLexemes ts us)
      (hnext : r.Beside next next') : Results r (.ok (ts, next)) (.ok (us, next'))
  | error (e e' : SyntaxError) : Results r (.error e) (.error e')

/-! ### Code -/

private theorem lexeme_tokenBetween (kind : TokenKind) (text : List Char) (c d : Cursor) :
    (Lexer.tokenBetween kind text c d).lexeme = (kind, String.ofList text) := rfl

theorem sameLexemes_singleton {t u : Token} (h : u.lexeme = t.lexeme) : SameLexemes [t] [u] :=
  congrArg ([·]) h

namespace Within

theorem number (h : r.Within c d) :
    (∃ e e', Lexer.number c = .error e ∧ Lexer.number d = .error e') ∨
      ∃ t u c' d', Lexer.number c = .ok (t, c') ∧ Lexer.number d = .ok (u, d') ∧
        u.lexeme = t.lexeme ∧ r.Within c' d' := by
  obtain ⟨hwhole, hlast⟩ := h.takeWhile (p := isAsciiDigit) (by decide)
  simp only [Lexer.number]
  generalize c.takeWhile isAsciiDigit = run, d.takeWhile isAsciiDigit = run' at hwhole hlast
  obtain ⟨whole, last⟩ := run
  obtain ⟨whole', last'⟩ := run'
  obtain rfl : whole' = whole := hwhole
  dsimp only at hlast ⊢
  have hrest := hlast.rest
  split
  · rename_i rest hpoint
    rw [hpoint] at hrest
    obtain ⟨rest', hpoint', hafter⟩ := hrest.exists_cons
    have hpast : r.Within (last.forward 1 rest) (last'.forward 1 rest') :=
      hlast.forward (hafter (by decide))
    obtain ⟨hfraction, hend⟩ := hpast.takeWhile (p := isAsciiDigit) (by decide)
    simp only [hpoint', hfraction]
    split
    · exact .inl ⟨_, _, rfl, rfl⟩
    · exact .inr ⟨_, _, _, _, rfl, rfl, rfl, hend⟩
  · rename_i hother
    split
    · rename_i rest' hpoint'
      exact absurd hpoint' (hrest.ne_cons hother rest')
    · exact .inr ⟨_, _, _, _, rfl, rfl, rfl, hlast⟩

theorem word (h : r.Within c d) : (Lexer.word d).1.lexeme = (Lexer.word c).1.lexeme ∧
    r.Within (Lexer.word c).2 (Lexer.word d).2 := by
  obtain ⟨htext, hlast⟩ := h.takeWhile (p := Cursor.continuesName) (by decide)
  simp only [Lexer.word, lexeme_tokenBetween, htext]
  exact ⟨trivial, hlast⟩

theorem sign (h : r.Within c d) {s : Sign} (hsign : Lexer.sign? c.rest = some s) :
    (Lexer.sign d s).1.lexeme = (Lexer.sign c s).1.lexeme ∧
      r.Within (Lexer.sign c s).2 (Lexer.sign d s).2 := by
  obtain ⟨rest, hrest⟩ := Lexer.spelling_of_sign? hsign
  have hplain : '\n' ∉ s.spelling.toList := by
    intro hmem
    exact (Lexer.plain_of_mem_spelling _ hmem).1 rfl
  refine ⟨rfl, h.forward ?_⟩
  rw [hrest, List.drop_left]
  exact h.rest.drop hplain hrest

end Within

/-- A string starts alike in both texts. A block string keeps the indentation that it started in,
so that has to be the same. -/
theorem Alike.openString (h : r.Alike place lx mx) (hcd : r.Within c d) (hnil : r.lines [] [])
    {rest : List Char} (hrest : c.rest = '"' :: rest)
    (hblock : 2 < (Lexer.quoteRun c).1.length → mx.indentation = lx.indentation) :
    r.Results (Lexer.openString lx c) (Lexer.openString mx d) := by
  obtain ⟨hquotes, hlast⟩ := hcd.takeWhile (p := (· == '"')) (by decide)
  have hpasses := Cursor.passes_takeWhile (p := (· == '"')) c (by decide)
  have hcolumn : 1 < (Lexer.quoteRun c).2.column :=
    Nat.lt_of_le_of_lt hcd.one_le
      (hpasses.column_lt (Cursor.takeWhile_ne_nil hrest (by decide)))
  change (Lexer.quoteRun d).1 = (Lexer.quoteRun c).1 at hquotes
  change r.Within (Lexer.quoteRun c).2 (Lexer.quoteRun d).2 at hlast
  simp only [Lexer.openString, h.contains_hole]
  generalize Lexer.quoteRun c = run, Lexer.quoteRun d = run' at hquotes hlast hcolumn hblock
  obtain ⟨quotes, last⟩ := run
  obtain ⟨quotes', last'⟩ := run'
  obtain rfl : quotes = quotes' := hquotes.symm
  dsimp only at hlast hcolumn hblock ⊢
  split
  · rename_i hlong
    split
    · exact .error _ _
    -- The line break after the quotes is skipped in both texts or in neither.
    refine .ok (sameLexemes_singleton rfl) ?_
    have hmode : Mode.Alike (.blockString ⟨quotes.length, lx.indentation, none, by omega⟩)
        (.blockString ⟨quotes.length, mx.indentation, none, by omega⟩) :=
      .blockString rfl (hblock hlong) rfl
    unfold Lexer.skipLineEnd
    rw [hlast.atLineEnd]
    split
    · rename_i hend
      cases hread : last.read? with
      | none =>
        have hnone := hlast.rest.eq_nil (Cursor.rest_eq_nil_of_read? hread)
        have hread' : last'.read? = none := by simp [Cursor.read?, hnone]
        rw [hread']
        exact .within ((h.moveTo hlast).push hmode) hcolumn
      | some result =>
        obtain ⟨e, hread', hstart⟩ := hlast.read? hnil hend hread
        rw [hread']
        exact .start ((h.moveTo hstart).push hmode) (by simp [Lexer.push, Lexer.mode])
          (by simp [Lexer.push, Lexer.mode])
    · exact .within ((h.moveTo hlast).push hmode) hcolumn
  · split
    · exact .ok (sameLexemes_singleton rfl) (.within (h.moveTo hlast) hcolumn)
    · exact .ok (sameLexemes_singleton rfl) (.within ((h.moveTo hlast).push .lineString) hcolumn)

/-- A token that is the same lexeme in both texts leaves the lexers side by side within a line. -/
theorem Alike.lexeme {c c' d' : Cursor} {t u : Token} (h : r.Alike r.Within lx mx)
    (hcolumn : 1 ≤ c.column) (hreads : Lexer.Reads c t c') (hlexeme : u.lexeme = t.lexeme)
    (hlast : r.Within c' d') :
    r.Results (.ok ([t], lx.moveTo c')) (.ok ([u], mx.moveTo d')) := by
  obtain ⟨cs, hpasses, hne, -⟩ := hreads.passes
  exact .ok (sameLexemes_singleton hlexeme)
    (.within (h.moveTo hlast) (Nat.lt_of_le_of_lt hcolumn (hpasses.column_lt hne)))

/-- One token of code, or the end of a line, is read alike in both texts. -/
theorem Alike.code (h : r.Alike r.Within lx mx) (hnil : r.lines [] [])
    (hline : lx.mode ≠ .lineString) (hcan : lx.cursor.canRead = true)
    (hblock : 2 < (Lexer.quoteRun lx.cursor.skipBlanks).1.length →
      mx.indentation = lx.indentation) :
    r.Results lx.code mx.code := by
  have hblank := h.cursor.skipBlanks
  have hpassed := Cursor.passes_skipBlanks lx.cursor
  have hrest := hblank.rest
  have hcolumn := hblank.one_le
  simp only [Lexer.code, hblank.atLineEnd, h.mode.eq_hole_iff]
  generalize hc : lx.cursor.skipBlanks = c, mx.cursor.skipBlanks = d at *
  cases hcr : c.rest with
  | nil =>
    rw [hrest.eq_nil hcr]
    -- Something was left, so blanks have been passed.
    have hne : (lx.cursor.takeWhile Cursor.isIndentChar).1 ≠ [] := by
      intro hnone
      have hall := hpassed.rest
      rw [hnone, hcr] at hall
      simp [Cursor.canRead, hall] at hcan
    exact .ok (.refl _)
      (.within (h.moveTo hblank) (Nat.lt_of_le_of_lt h.cursor.one_le (hpassed.column_lt hne)))
  | cons ch rest =>
  rw [hcr] at hrest
  obtain ⟨rest', hdr, hrest'⟩ := hrest.exists_cons
  simp only [hdr]
  split
  · rename_i hend
    split
    · exact .error _ _
    · rename_i hhole
      cases hread : c.read? with
      | none =>
        rw [Cursor.rest_eq_nil_of_read? hread] at hcr
        cases hcr
      | some result =>
        obtain ⟨e, hread', hstart⟩ := hblank.read? hnil hend hread
        rw [hread']
        exact .ok (sameLexemes_singleton rfl) (.start (h.moveTo hstart) hline hhole)
  rename_i hend
  split
  · rename_i hdigit
    rcases hblank.number with ⟨e, e', hnumber, hnumber'⟩ |
      ⟨t, u, c', d', hnumber, hnumber', hlexeme, hlast⟩
    · rw [hnumber, hnumber']
      exact .error _ _
    · rw [hnumber, hnumber']
      exact h.lexeme hcolumn (Lexer.reads_number hcr hdigit hnumber).2 hlexeme hlast
  split
  · rename_i hname
    obtain ⟨hlexeme, hlast⟩ := hblank.word
    exact h.lexeme hcolumn (Lexer.reads_word hcr hname).2 hlexeme hlast
  split
  · rename_i hquote
    subst hquote
    exact h.openString hblank hnil hcr hblock
  split
  · rename_i hbrace
    have hne : ch ≠ '\n' := by
      rintro rfl
      cases hbrace.1
    have hone := Nat.lt_of_le_of_lt hcolumn
      ((Cursor.passes_one hcr hne).column_lt (List.cons_ne_nil _ _))
    exact .ok (sameLexemes_singleton rfl)
      (.within (h.moveTo (hblank.forward (hrest' hne))).pop hone)
  · have hsign : Lexer.sign? d.rest = Lexer.sign? c.rest := hblank.rest.sign?
    rw [hdr, hcr] at hsign
    rw [hsign]
    split
    · rename_i s hs
      obtain ⟨hlexeme, hlast⟩ := hblank.sign (hcr ▸ hs)
      exact h.lexeme hcolumn (Lexer.reads_sign (hcr ▸ hs)).2 hlexeme hlast
    · exact .error _ _

/-! ### Strings -/

/-- Two results of reading the content of a string: faults, or the same text up to as many columns
further on, with texts left that agree on the line. -/
inductive ContentsAlike (below : List Char → List Char → Prop) (column column' : Nat) :
    Except (Nat × Option Char) (List Char × Nat × List Char) →
      Except (Nat × Option Char) (List Char × Nat × List Char) → Prop
  | error (e e' : Nat × Option Char) : ContentsAlike below column column' (.error e) (.error e')
  | ok (text : List Char) (n : Nat) {left left' : List Char} (h : AgreeOnLine below left left') :
      ContentsAlike below column column' (.ok (text, column + n, left))
        (.ok (text, column' + n, left'))

/-- A character that is read in front of both contents. -/
theorem ContentsAlike.push {below : List Char → List Char → Prop} {column column' k : Nat}
    {result result' : Except (Nat × Option Char) (List Char × Nat × List Char)} (ch : Char) :
    ContentsAlike below (column + k) (column' + k) result result' →
      ContentsAlike below column column'
        (match result with
          | .ok (text, last, left) => .ok (ch :: text, last, left)
          | .error e => .error e)
        (match result' with
          | .ok (text, last, left) => .ok (ch :: text, last, left)
          | .error e => .error e) := by
  intro h
  cases h with
  | error e e' => exact .error e e'
  | ok text n h => simpa only [Nat.add_assoc] using ContentsAlike.ok (ch :: text) (k + n) h

/-- The content of a string is read alike, whatever the columns are. -/
theorem content_alike {below : List Char → List Char → Prop} (quotes column column' : Nat)
    {cs ds : List Char} (h : AgreeOnLine below cs ds) :
    ContentsAlike below column column' (Lexer.content quotes column cs)
      (Lexer.content quotes column' ds) := by
  -- The cases are those of the function on the first text.
  fun_induction Lexer.content quotes column cs generalizing ds column' with
  | case1 column =>
    rw [h.eq_nil rfl]
    exact .ok [] 0 .nil
  | case2 column =>
    obtain ⟨rest', rfl, hrest⟩ := h.exists_cons
    rw [(hrest (by decide)).eq_nil rfl]
    exact .error _ _
  | case3 column ch rest hescape =>
    obtain ⟨more, rfl, hmore⟩ := h.exists_cons
    obtain ⟨rest', rfl, -⟩ := (hmore (by decide)).exists_cons
    simpa only [Lexer.content, hescape] using .error _ _
  | case4 column ch rest plain hescape _ _ _ hrec ih
  | case5 column ch rest plain hescape _ hrec ih =>
    obtain ⟨more, rfl, hmore⟩ := h.exists_cons
    obtain ⟨rest', rfl, hrest⟩ := (hmore (by decide)).exists_cons
    have hsame := (ih (column' + 2) (hrest (Lexer.unescape?_ne_break hescape))).push plain
    rw [hrec] at hsame
    simp only [Lexer.content, hescape]
    exact hsame
  | case6 column ch rest hlone hescape hstops =>
    obtain ⟨rest', rfl, -⟩ := h.exists_cons
    have hstops' := hstops
    rw [← h.startsWithQuotes] at hstops'
    rw [Lexer.content_of_ne (Lexer.ne_backslash hlone hescape), if_pos hstops']
    exact .ok [] 0 h
  | case7 column ch rest hlone hescape hstops _ _ _ hrec ih
  | case8 column ch rest hlone hescape hstops _ hrec ih =>
    obtain ⟨rest', rfl, hrest⟩ := h.exists_cons
    have hbreak : ch ≠ '\n' := by
      rintro rfl
      simp at hstops
    have hsame := (ih (column' + 1) (hrest hbreak)).push ch
    rw [hrec] at hsame
    rw [← h.startsWithQuotes] at hstops
    rwa [Lexer.content_of_ne (Lexer.ne_backslash hlone hescape), if_neg hstops]

theorem Within.readContent (h : r.Within c d) (quotes : Nat) :
    (∃ e e', Lexer.readContent quotes c = .error e ∧ Lexer.readContent quotes d = .error e') ∨
      ∃ text c' d', Lexer.readContent quotes c = .ok (text, c') ∧
        Lexer.readContent quotes d = .ok (text, d') ∧ r.Within c' d' := by
  have hcontent := content_alike quotes c.column d.column h.rest
  unfold Lexer.readContent
  generalize Lexer.content quotes c.column c.rest = result,
    Lexer.content quotes d.column d.rest = result' at hcontent
  cases hcontent with
  | error e e' => exact .inl ⟨_, _, rfl, rfl⟩
  | ok text n hleft => exact .inr ⟨_, _, _, rfl, rfl, h.forward hleft⟩

private theorem sameLexemes_fragment (text : List Char) (c c' d d' : Cursor) :
    SameLexemes (Lexer.fragment text c c') (Lexer.fragment text d d') := by
  unfold Lexer.fragment
  split <;> rfl

private theorem sameLexemes_lineBreak {pending pending' : Option Span}
    (h : pending'.isSome = pending.isSome) :
    SameLexemes (Lexer.lineBreak pending) (Lexer.lineBreak pending') := by
  cases pending <;> cases pending' <;> first | rfl | cases h

/-- A string on one line is read alike in both texts. -/
theorem Alike.lineString (h : r.Alike r.Within lx mx) : r.Results lx.lineString mx.lineString := by
  unfold Lexer.lineString
  rcases h.cursor.readContent 1 with ⟨e, e', he, he'⟩ | ⟨text, c, d, hread, hread', hcd⟩
  · rw [he, he']
    exact .error _ _
  rw [hread, hread']
  have hfragment := sameLexemes_fragment text lx.cursor c mx.cursor d
  have hpast {rest : List Char} : 1 < (c.forward 1 rest).column := by
    have hone := hcd.one_le
    simp only [Cursor.forward]
    omega
  have hrest := hcd.rest
  dsimp only
  split
  · rename_i rest hcr
    rw [hcr] at hrest
    obtain ⟨rest', hdr, hrest'⟩ := hrest.exists_cons
    rw [hdr]
    exact .ok (hfragment.append (sameLexemes_singleton rfl))
      (.within ((h.moveTo (hcd.forward (hrest' (by decide)))).push .hole) hpast)
  · rename_i rest hcr
    rw [hcr] at hrest
    obtain ⟨rest', hdr, hrest'⟩ := hrest.exists_cons
    rw [hdr]
    exact .ok (hfragment.append (sameLexemes_singleton rfl))
      (.within (h.moveTo (hcd.forward (hrest' (by decide)))).pop hpast)
  · rename_i hhole hclose
    split
    · rename_i rest' hdr
      exact absurd hdr (hrest.ne_cons hhole rest')
    · rename_i rest' hdr
      exact absurd hdr (hrest.ne_cons hclose rest')
    · exact .error _ _

/-- A block string is read alike up to the end of the line, its next hole or its end. -/
theorem Alike.blockContent (h : r.Alike place lx mx) (hnil : r.lines [] []) (hcd : r.Within c d)
    {s s' : BlockString} (hquotes : s'.quotes = s.quotes) (hbaseline : s'.baseline = s.baseline)
    (hpending : s'.pending.isSome = s.pending.isSome) :
    r.Results (lx.blockContent s c) (mx.blockContent s' d) := by
  obtain ⟨quotes, baseline, pending, hpos⟩ := s
  obtain ⟨quotes', baseline', pending', hpos'⟩ := s'
  obtain rfl : quotes = quotes' := hquotes.symm
  obtain rfl : baseline = baseline' := hbaseline.symm
  unfold Lexer.blockContent
  dsimp only at hpending ⊢
  rcases hcd.readContent quotes with ⟨e, e', he, he'⟩ | ⟨text, c', d', hread, hread', hlast⟩
  · rw [he, he']
    exact .error _ _
  rw [hread, hread']
  have hfragment := sameLexemes_fragment text c c' d d'
  have hbreak := sameLexemes_lineBreak hpending
  have hrest := hlast.rest
  dsimp only
  split
  · rename_i hcr
    rw [hrest.eq_nil hcr]
    exact .error _ _
  · rename_i rest hcr
    rw [hcr] at hrest
    obtain ⟨rest', hdr, hrest'⟩ := hrest.exists_cons
    rw [hdr]
    refine .ok ((hbreak.append hfragment).append (sameLexemes_singleton rfl)) (.within ?_ ?_)
    · exact ((h.moveTo (hlast.forward (hrest' (by decide)))).replaceTop
        (.blockString rfl rfl rfl)).push .hole
    · exact Nat.lt_add_of_pos_left hlast.one_le
  · rename_i rest hcr
    have hstarts := Lexer.startsWithQuotes_of_readContent hread hcr
    have hquotes := (Lexer.passes_quotes hstarts).rest
    have hdrop := hrest.drop (by simp) hquotes
    rw [List.length_replicate] at hdrop
    rw [hcr] at hrest
    obtain ⟨rest', hdr, -⟩ := hrest.exists_cons
    rw [hdr] at hdrop ⊢
    refine .ok (.append ?_ (sameLexemes_singleton rfl)) (.within (h.moveTo ?_).pop ?_)
    · split
      · exact .refl _
      · exact hbreak.append hfragment
    · exact hlast.forward hdrop
    · exact Nat.lt_of_le_of_lt hlast.one_le (Nat.lt_add_of_pos_right hpos)
  · rename_i hcr hhole hclose
    -- Content that stops at neither a hole nor the quotes stops at the end of the line.
    have hend := Lexer.atLineEnd_of_readContent hread hpos hhole hclose
    cases hnext : c'.read? with
    | none => exact absurd (Cursor.rest_eq_nil_of_read? hnext) hcr
    | some result =>
      obtain ⟨x, next⟩ := result
      obtain ⟨e, hnext', hstart⟩ := hlast.read? hnil hend hnext
      dsimp only
      split
      · rename_i hdr
        exact absurd hdr (hrest.ne_nil hcr)
      · rename_i rest' hdr
        exact absurd hdr (hrest.ne_cons hhole rest')
      · rename_i rest' hdr
        exact absurd hdr (hrest.ne_cons hclose rest')
      · rw [hnext']
        refine .ok (hbreak.append hfragment) (.start ?_ ?_ ?_)
        · exact (h.moveTo hstart).replaceTop (.blockString rfl rfl rfl)
        · simp [Lexer.replaceTop, Lexer.push, Lexer.mode]
        · simp [Lexer.replaceTop, Lexer.push, Lexer.mode]

end Relayout

end DialogScript
