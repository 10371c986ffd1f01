import DialogScript.Token.Lexer
import DialogScript.Proofs.Numerals

/-!
# How the cursor moves

`c.Passes cs d` says that a cursor gets from `c` to `d` over the characters `cs` of one line.
Every part of the lexer that reads within a line passes some characters: a run of a class, a
number, a word, a sign, the content of a string. The specifications here say which token comes
out of it.
-/

namespace DialogScript

open Text

namespace Cursor

/-- A cursor moves over some characters of one line. -/
structure Passes (c : Cursor) (cs : List Char) (d : Cursor) : Prop where
  rest : c.rest = cs ++ d.rest
  line : d.line = c.line
  column : d.column = c.column + cs.length
  style : d.style = c.style
  sameLine : '\n' ∉ cs

namespace Passes

variable {c d e : Cursor} {cs ds : List Char}

theorem trans (h : c.Passes cs d) (h' : d.Passes ds e) : c.Passes (cs ++ ds) e where
  rest := by rw [h.rest, h'.rest, List.append_assoc]
  line := h'.line.trans h.line
  column := by rw [h'.column, h.column, List.length_append, Nat.add_assoc]
  style := h'.style.trans h.style
  sameLine := by simp [h.sameLine, h'.sameLine]

theorem column_lt (h : c.Passes cs d) (hcs : cs ≠ []) : c.column < d.column := by
  have := List.length_pos_iff.mpr hcs
  rw [h.column]
  omega

theorem column_le (h : c.Passes cs d) : c.column ≤ d.column := by
  rw [h.column]
  omega

end Passes

theorem passes_forward {c : Cursor} {cs rest : List Char} (h : c.rest = cs ++ rest)
    (hline : '\n' ∉ cs) : c.Passes cs (c.forward cs.length rest) :=
  ⟨h, rfl, rfl, rfl, hline⟩

/-- The next character is passed if it is no line break. -/
theorem passes_one {c : Cursor} {ch : Char} {rest : List Char} (h : c.rest = ch :: rest)
    (hch : ch ≠ '\n') : c.Passes [ch] (c.forward 1 rest) :=
  passes_forward h (by simpa using hch.symm)

theorem passes_takeWhile {p : Char → Bool} (c : Cursor) (hp : p '\n' = false) :
    c.Passes (c.takeWhile p).1 (c.takeWhile p).2 := by
  refine passes_forward (List.takeWhile_append_dropWhile).symm fun hmem => ?_
  have hbreak := List.all_eq_true.mp List.all_takeWhile _ hmem
  rw [hp] at hbreak
  cases hbreak

theorem passes_skipBlanks (c : Cursor) :
    c.Passes (c.takeWhile isIndentChar).1 c.skipBlanks :=
  passes_takeWhile c (by decide)

/-- Before a character that is no blank there are no blanks to skip. -/
theorem skipBlanks_eq_self {c : Cursor} {ch : Char} {rest : List Char} (hrest : c.rest = ch :: rest)
    (hch : isIndentChar ch = false) : c.skipBlanks = c := by
  rw [skipBlanks, takeWhile, hrest, List.takeWhile_cons_of_neg (by simp [hch]),
    List.dropWhile_cons_of_neg (by simp [hch]), ← hrest]
  rfl

theorem takeWhile_ne_nil {p : Char → Bool} {c : Cursor} {ch : Char} {rest : List Char}
    (hrest : c.rest = ch :: rest) (hch : p ch = true) : (c.takeWhile p).1 ≠ [] := by
  simp [takeWhile, hrest, hch]

/-- Only at the end of the source there is nothing to read. -/
theorem rest_eq_nil_of_read? {c : Cursor} (h : c.read? = none) : c.rest = [] := by
  unfold read? at h
  split at h
  · assumption
  · split at h
    · cases h
    · split at h <;> cases h

/-- What reading the next character gives: the character of a line, or the end of the line. -/
theorem read?_cases {c next : Cursor} {ch : Char} (h : c.read? = some (ch, next)) :
    (c.atLineEnd = true ∧ next.line = c.line + 1 ∧ next.column = 1 ∧ next.style = c.style) ∨
      (c.atLineEnd = false ∧ c.Passes [ch] next) := by
  unfold read? at h
  unfold atLineEnd
  split at h
  · cases h
  · rename_i x rest hrest
    split at h
    · rename_i hbreak
      obtain ⟨rfl, rfl⟩ := Prod.mk.inj (Option.some.inj h)
      exact .inl ⟨by simp [hbreak], rfl, rfl, rfl⟩
    · rename_i hbreak
      split at h
      · rename_i hcomment
        obtain ⟨rfl, rfl⟩ := Prod.mk.inj (Option.some.inj h)
        exact .inl ⟨by simp [hcomment], rfl, rfl, rfl⟩
      · rename_i hcomment
        obtain ⟨rfl, rfl⟩ := Prod.mk.inj (Option.some.inj h)
        exact .inr ⟨by simp [hbreak, hcomment], passes_one hrest hbreak⟩

/-- Past the end of a line comes the start of the next line. -/
theorem nextLine_of_read? {c next : Cursor} {ch : Char} (hend : c.atLineEnd = true)
    (h : c.read? = some (ch, next)) : next.line = c.line + 1 ∧ next.column = 1 := by
  rcases read?_cases h with ⟨-, hline, hcolumn, -⟩ | ⟨hend', -⟩
  · exact ⟨hline, hcolumn⟩
  · rw [hend] at hend'
    cases hend'

/-- Before the end of a line, reading passes one character. -/
theorem passes_of_read? {c next : Cursor} {ch : Char} (hend : ¬c.atLineEnd = true)
    (h : c.read? = some (ch, next)) : c.Passes [ch] next := by
  rcases read?_cases h with ⟨hend', -⟩ | ⟨-, hpasses⟩
  · exact absurd hend' hend
  · exact hpasses

theorem style_of_read? {c next : Cursor} {ch : Char} (h : c.read? = some (ch, next)) :
    next.style = c.style := by
  rcases read?_cases h with ⟨-, -, -, hstyle⟩ | ⟨-, hpasses⟩
  · exact hstyle
  · exact hpasses.style

/-- Reading leaves an end of the text. -/
theorem rest_suffix_of_read? {c next : Cursor} {ch : Char} (h : c.read? = some (ch, next)) :
    next.rest <:+ c.rest := by
  unfold read? at h
  split at h
  · cases h
  rename_i x rest hrest
  rw [hrest]
  split at h <;> (try split at h) <;> obtain ⟨-, rfl⟩ := Prod.mk.inj (Option.some.inj h)
  · exact List.suffix_cons x rest
  · exact ((List.drop_suffix 1 _).trans (List.dropWhile_suffix _)).trans (List.suffix_cons x rest)
  · exact List.suffix_cons x rest

/-- A cursor gets from one place to another by passing characters, reading ends of lines and
fixing the indentation style. -/
inductive Reaches : Cursor → Cursor → Prop
  | refl (c : Cursor) : Reaches c c
  | passes {c d e : Cursor} {cs : List Char} (h : c.Passes cs d) (hrest : Reaches d e) :
      Reaches c e
  | lineEnd {c d e : Cursor} {ch : Char} (hend : c.atLineEnd = true)
      (h : c.read? = some (ch, d)) (hrest : Reaches d e) : Reaches c e
  | styled {c e : Cursor} {ch : Char} (hrest : Reaches (c.withStyle ch) e) : Reaches c e

namespace Reaches

variable {c d e : Cursor}

theorem trans (h : c.Reaches d) (h' : d.Reaches e) : c.Reaches e := by
  induction h with
  | refl => exact h'
  | passes hpasses _ ih => exact .passes hpasses (ih h')
  | lineEnd hend hread _ ih => exact .lineEnd hend hread (ih h')
  | styled _ ih => exact .styled (ih h')

theorem of_passes {cs : List Char} (h : c.Passes cs d) : c.Reaches d := .passes h (.refl d)

theorem of_read? {ch : Char} (h : c.read? = some (ch, d)) : c.Reaches d := by
  rcases read?_cases h with ⟨hend, -⟩ | ⟨-, hpasses⟩
  · exact .lineEnd hend h (.refl d)
  · exact of_passes hpasses

theorem line_le (h : c.Reaches d) : c.line ≤ d.line := by
  induction h with
  | refl => exact Nat.le_refl _
  | passes hpasses _ ih => exact hpasses.line ▸ ih
  | lineEnd hend hread _ ih =>
    have := (nextLine_of_read? hend hread).1
    omega
  | styled _ ih => exact ih

theorem one_le_column (h : c.Reaches d) (hc : 1 ≤ c.column) : 1 ≤ d.column := by
  induction h with
  | refl => exact hc
  | passes hpasses _ ih => exact ih (Nat.le_trans hc hpasses.column_le)
  | lineEnd hend hread _ ih => exact ih (Nat.le_of_eq (nextLine_of_read? hend hread).2.symm)
  | styled _ ih => exact ih hc

theorem rest_suffix (h : c.Reaches d) : d.rest <:+ c.rest := by
  induction h with
  | refl => exact List.suffix_refl _
  | passes hpasses _ ih => exact ih.trans ⟨_, hpasses.rest.symm⟩
  | lineEnd _ hread _ ih => exact ih.trans (rest_suffix_of_read? hread)
  | styled _ ih => exact ih

end Reaches

theorem readIndent_reaches {limit : Option Nat} {c d : Cursor} {r : Except SyntaxError Nat}
    (h : c.readIndent limit = (r, d)) : c.Reaches d := by
  fun_induction readIndent limit c with
  | case1 | case2 | case4 | case7 | case8 =>
    obtain ⟨-, rfl⟩ := Prod.mk.inj h
    exact .refl _
  | case3 _ _ _ hread _ _ _ ih => exact (Reaches.of_read? hread).trans (ih h)
  | case5 _ _ _ hread _ _ _ _ _ _ _ ih =>
    exact (Reaches.of_read? hread).trans (.styled (ih h))
  | case6 _ _ _ hread _ _ _ _ _ _ _ ih => exact (Reaches.of_read? hread).trans (ih h)

/-! ### Indentation -/

/-- Indentation ends at the first character that is no blank, where the line does not end. -/
theorem readIndent_of_ink {c : Cursor} {ch : Char} {rest : List Char} (hrest : c.rest = ch :: rest)
    (hend : c.atLineEnd = false) (hch : isIndentChar ch = false) :
    c.readIndent none = (.ok (c.column - 1), c) := by
  rw [readIndent]
  split
  · rename_i hread
    rw [rest_eq_nil_of_read? hread] at hrest
    cases hrest
  · simp [hend, peek, hrest, hch, level, canRead]

/-- A blank is read before the limit. -/
theorem readIndent_of_blank {limit : Option Nat} {c : Cursor} {ch : Char} {rest : List Char}
    (hch : isIndentChar ch = true) (hrest : c.rest = ch :: rest)
    (hstyle : c.style = none ∨ c.style = some ch) (hlimit : ∀ n ∈ limit, c.column ≤ n) :
    c.readIndent limit = readIndent limit { c.forward 1 rest with style := some ch } := by
  have hink : ch ≠ '\n' ∧ ch ≠ '#' := by
    constructor <;> rintro rfl <;> exact absurd hch (by decide)
  have hread : c.read? = some (ch, c.forward 1 rest) := by simp [read?, hrest, hink]
  have hend : c.atLineEnd = false := by simp [atLineEnd, hrest, hink]
  have hbefore : limit.any (· < c.column) = false := by
    cases limit with
    | none => rfl
    | some n => simpa using hlimit n rfl
  rw [readIndent]
  split
  · simp_all
  · rename_i next h
    obtain ⟨-, rfl⟩ := Prod.mk.inj (Option.some.inj (hread.symm.trans h))
    rcases hstyle with hstyle | hstyle
    · simp [hbefore, hend, peek, hrest, hch, hstyle, withStyle]
    · simp [hbefore, hend, peek, hrest, hch, hstyle, forward]

/-- The cursor past copies of a blank, which fix the indentation style. -/
def pastBlanks (ch : Char) (width : Nat) (rest : List Char) (c : Cursor) : Cursor :=
  { c.forward width rest with style := if width = 0 then c.style else some ch }

theorem style_pastBlanks {c : Cursor} {ch : Char} (h : c.style = none ∨ c.style = some ch)
    (width : Nat) (rest : List Char) :
    (c.pastBlanks ch width rest).style = none ∨ (c.pastBlanks ch width rest).style = some ch := by
  unfold pastBlanks
  dsimp only
  split
  · exact h
  · exact .inr rfl

/-- Copies of one blank are read without coming to an end. -/
theorem readIndent_blanks {limit : Option Nat} {c : Cursor} {ch : Char} {rest : List Char}
    {width : Nat} (hch : isIndentChar ch = true) (hrest : c.rest = List.replicate width ch ++ rest)
    (hstyle : 0 < width → c.style = none ∨ c.style = some ch)
    (hlimit : ∀ n ∈ limit, c.column + width ≤ n + 1) :
    c.readIndent limit = (c.pastBlanks ch width rest).readIndent limit := by
  induction width generalizing c with
  | zero =>
    rw [List.replicate_zero, List.nil_append] at hrest
    rw [pastBlanks, ← hrest]
    rfl
  | succ width ih =>
    rw [List.replicate_succ, List.cons_append] at hrest
    have hlimit' : ∀ n ∈ limit, c.column + 1 + width ≤ n + 1 := by
      intro n hn
      have := hlimit n hn
      omega
    rw [readIndent_of_blank hch hrest (hstyle (Nat.succ_pos _)) fun n hn => by
        have := hlimit n hn
        omega,
      ih (c := { c.forward 1 _ with style := some ch }) rfl (fun _ => .inr rfl) hlimit']
    simp [pastBlanks, forward, Nat.add_assoc, Nat.add_comm 1 width]

end Cursor

/-! ### How tokens are written -/

/-- Undoes the escapes of a text. -/
def undoEscapes : List Char → Option (List Char)
  | [] => some []
  | '\\' :: [] => none
  | '\\' :: ch :: rest =>
    match Lexer.unescape? ch with
    | none => none
    | some plain => (undoEscapes rest).map (plain :: ·)
  | ch :: rest => (undoEscapes rest).map (ch :: ·)

/-- Every character of a text is written as one character or more. -/
theorem length_le_of_undoEscapes {raw text : List Char} (h : undoEscapes raw = some text) :
    text.length ≤ raw.length := by
  fun_induction undoEscapes raw generalizing text with
  | case1 =>
    obtain rfl := Option.some.inj h
    exact Nat.le_refl _
  | case2 | case3 => cases h
  | case4 ch rest plain hescape ih =>
    obtain ⟨text, htext, rfl⟩ := Option.map_eq_some_iff.mp h
    have := ih htext
    simp only [List.length_cons]
    omega
  | case5 ch rest hlone hescape ih =>
    obtain ⟨text, htext, rfl⟩ := Option.map_eq_some_iff.mp h
    have := ih htext
    simp only [List.length_cons]
    omega

/-- Only nothing stands for the empty text. -/
theorem eq_nil_of_undoEscapes {raw : List Char} (h : undoEscapes raw = some []) : raw = [] := by
  fun_cases undoEscapes raw with
  | case1 => rfl
  | case2 | case3 | case4 | case5 => simp_all [undoEscapes]

/-- What stands in the source for a token: its text, with escapes if it is a text of a script.
The empty text is written as two quotes. -/
def Token.WrittenAs (t : Token) (raw : List Char) : Prop :=
  if t.kind = .text then
    undoEscapes raw = some t.text.toList ∨ t.text = "" ∧ raw = ['"', '"']
  else t.text.toList = raw

theorem Token.writtenAs_of_ne_text {t : Token} {raw : List Char} (hkind : t.kind ≠ .text)
    (h : t.text.toList = raw) : t.WrittenAs raw := by
  rwa [WrittenAs, if_neg hkind]

namespace Lexer

/-! ### Tokens between two places -/

@[simp]
theorem kind_tokenBetween (kind : TokenKind) (text : List Char) (c d : Cursor) :
    (tokenBetween kind text c d).kind = kind := rfl

theorem toList_text_tokenBetween (kind : TokenKind) (text : List Char) (c d : Cursor) :
    (tokenBetween kind text c d).text.toList = text := String.toList_ofList

theorem columns_tokenBetween {kind : TokenKind} {text cs : List Char} {c d : Cursor}
    (h : c.Passes cs d) (hcs : cs ≠ []) :
    (tokenBetween kind text c d).initial < (tokenBetween kind text c d).final :=
  Int.ofNat_lt.mpr (h.column_lt hcs)

/-- A token at a span has columns. -/
theorem columns_atSpan (kind : TokenKind) (text : String) (s : Span) :
    (Token.atSpan kind text s).initial < (Token.atSpan kind text s).final := s.nonempty

/-! ### Numbers, words and signs -/

/-- What a token of code is: its kind is that of a number, a word, a sign or a text. -/
def isSimple : TokenKind → Bool
  | .integer => true
  | .float => true
  | .text => true
  | .name => true
  | .keyword _ => true
  | .sign _ => true
  | _ => false

/-- A token that is read in code from one place to another on the same line. -/
structure Reads (c : Cursor) (t : Token) (d : Cursor) : Prop where
  made : t.WellMade
  line : t.line = c.line
  initial : t.initial = c.column
  final : t.final = d.column
  passes : ∃ cs, c.Passes cs d ∧ cs ≠ [] ∧ t.WrittenAs cs

theorem reads_tokenBetween {kind : TokenKind} {text cs : List Char} {c d : Cursor}
    (h : c.Passes cs d) (hcs : cs ≠ []) (hfits : (tokenBetween kind text c d).Fits)
    (hwritten : (tokenBetween kind text c d).WrittenAs cs) :
    Reads c (tokenBetween kind text c d) d :=
  ⟨⟨hfits, columns_tokenBetween h hcs⟩, rfl, rfl, rfl, cs, h, hcs, hwritten⟩

/-- A token that is no text is written as its text. -/
theorem writtenAs_tokenBetween {kind : TokenKind} (hkind : kind ≠ .text) (text : List Char)
    (c d : Cursor) : (tokenBetween kind text c d).WrittenAs text :=
  Token.writtenAs_of_ne_text hkind (toList_text_tokenBetween kind text c d)

private theorem isDigits_takeWhile {c : Cursor} (h : (c.takeWhile isAsciiDigit).1 ≠ []) :
    Numeral.IsDigits (c.takeWhile isAsciiDigit).1 :=
  ⟨h, List.all_eq_true.mp List.all_takeWhile⟩

theorem reads_number {c last : Cursor} {t : Token} {ch : Char} {rest : List Char}
    (hrest : c.rest = ch :: rest) (hch : isAsciiDigit ch = true)
    (h : number c = .ok (t, last)) : isSimple t.kind = true ∧ Reads c t last := by
  have hwhole := Cursor.passes_takeWhile (p := isAsciiDigit) c (by decide)
  have hwholeNe := Cursor.takeWhile_ne_nil hrest hch
  simp only [number] at h
  split at h
  · rename_i more hmore
    split at h
    · cases h
    · rename_i hfraction
      obtain ⟨rfl, rfl⟩ := Prod.mk.inj (Except.ok.inj h)
      have hpoint := Cursor.passes_one hmore (by decide)
      have hfractionPasses := Cursor.passes_takeWhile (p := isAsciiDigit)
        ((c.takeWhile isAsciiDigit).2.forward 1 more) (by decide)
      have hpasses := (hwhole.trans hpoint).trans hfractionPasses
      rw [List.append_assoc, List.singleton_append] at hpasses
      refine ⟨rfl, reads_tokenBetween hpasses (by simp) ?_ (writtenAs_tokenBetween (by simp) _ _ _)⟩
      refine ⟨_, _, toList_text_tokenBetween .float _ _ _, isDigits_takeWhile hwholeNe,
        isDigits_takeWhile (by simpa using hfraction)⟩
  · obtain ⟨rfl, rfl⟩ := Prod.mk.inj (Except.ok.inj h)
    refine ⟨rfl, reads_tokenBetween hwhole hwholeNe ?_ (writtenAs_tokenBetween (by simp) _ _ _)⟩
    change Numeral.IsDigits (String.ofList (c.takeWhile isAsciiDigit).1).toList
    rw [String.toList_ofList]
    exact isDigits_takeWhile hwholeNe

private theorem ofSpelling?_eq_some {word : String} {k : Keyword}
    (h : Keyword.ofSpelling? word = some k) :
    k.spelling = word := by
  simpa using List.find?_some h

theorem reads_word {c : Cursor} {ch : Char} {rest : List Char} (hrest : c.rest = ch :: rest)
    (hch : Cursor.startsName ch = true) :
    isSimple (word c).1.kind = true ∧ Reads c (word c).1 (word c).2 := by
  have hcontinues : Cursor.continuesName ch = true := by
    simp only [Cursor.startsName, Bool.or_eq_true] at hch
    simp only [Cursor.continuesName, Bool.or_eq_true]
    exact hch.elim (fun h => Or.inl (Or.inl h)) Or.inr
  have hpasses := Cursor.passes_takeWhile (p := Cursor.continuesName) c (by decide)
  have hne := Cursor.takeWhile_ne_nil hrest hcontinues
  simp only [word]
  split
  · rename_i keyword hkeyword
    exact ⟨rfl, reads_tokenBetween hpasses hne (ofSpelling?_eq_some hkeyword).symm
      (writtenAs_tokenBetween (by simp) _ _ _)⟩
  · exact ⟨rfl, reads_tokenBetween hpasses hne trivial (writtenAs_tokenBetween (by simp) _ _ _)⟩

theorem spelling_of_sign? {cs : List Char} {s : Sign} (h : sign? cs = some s) :
    ∃ rest, cs = s.spelling.toList ++ rest := by
  have hpart : ∀ n, s.spelling.toList = cs.take n → ∃ rest, cs = s.spelling.toList ++ rest :=
    fun n hn => ⟨cs.drop n, by rw [hn, List.take_append_drop]⟩
  simp only [sign?] at h
  split at h
  · rename_i hfind
    obtain rfl := Option.some.inj h
    exact hpart 2 (by simpa using List.find?_some hfind)
  · exact hpart 1 (by simpa using List.find?_some h)

theorem reads_sign {c : Cursor} {s : Sign} (h : sign? c.rest = some s) :
    isSimple (sign c s).1.kind = true ∧ Reads c (sign c s).1 (sign c s).2 := by
  obtain ⟨rest, hrest⟩ := spelling_of_sign? h
  have hdrop : c.rest.drop s.spelling.toList.length = rest := by rw [hrest, List.drop_left]
  have hline : '\n' ∉ s.spelling.toList := by cases s <;> decide
  have hne : s.spelling.toList ≠ [] := by cases s <;> decide
  have hpasses : c.Passes s.spelling.toList (sign c s).2 := by
    simp only [sign, hdrop]
    exact Cursor.passes_forward hrest hline
  exact ⟨rfl, reads_tokenBetween hpasses hne String.ofList_toList
    (writtenAs_tokenBetween (by simp) _ _ _)⟩

/-! ### The content of strings -/

theorem unescape?_ne_break {ch plain : Char} (h : unescape? ch = some plain) : ch ≠ '\n' := by
  rintro rfl
  cases h

/-- The content of a string is written with escapes, all of it on one line. -/
theorem content_spec {quotes column last : Nat} {cs text left : List Char}
    (h : content quotes column cs = .ok (text, last, left)) :
    ∃ raw, cs = raw ++ left ∧ last = column + raw.length ∧ '\n' ∉ raw ∧
      undoEscapes raw = some text := by
  fun_induction content quotes column cs generalizing text last left with
  | case1 =>
    obtain ⟨rfl, rfl, rfl⟩ := by simpa using h
    exact ⟨[], by simp [undoEscapes]⟩
  | case2 => cases h
  | case3 => cases h
  | case4 column ch rest plain hescape text' last' left' hrec ih =>
    obtain ⟨rfl, rfl, rfl⟩ := by simpa using h
    obtain ⟨raw, rfl, hlast, hline, hraw⟩ := ih hrec
    have hch := unescape?_ne_break hescape
    refine ⟨'\\' :: ch :: raw, rfl, ?_, ?_, ?_⟩
    · rw [hlast, List.length_cons, List.length_cons]
      omega
    · simp [hline, hch.symm]
    · simp [undoEscapes, hescape, hraw]
  | case5 => cases h
  | case6 =>
    obtain ⟨rfl, rfl, rfl⟩ := by simpa using h
    exact ⟨[], by simp [undoEscapes]⟩
  | case7 column ch rest hlone hescape hstops text' last' left' hrec ih =>
    obtain ⟨rfl, rfl, rfl⟩ := by simpa using h
    obtain ⟨raw, rfl, hlast, hline, hraw⟩ := ih hrec
    have hch : '\n' ≠ ch := by
      rintro rfl
      simp at hstops
    refine ⟨ch :: raw, rfl, ?_, ?_, ?_⟩
    · rw [hlast, List.length_cons]
      omega
    · simp [hline, hch]
    · -- A backslash before anything else is an escape, and before nothing an error.
      have hplain : ch ≠ '\\' := by
        rintro rfl
        cases hleft : raw ++ left' with
        | nil => exact hlone rfl hleft
        | cons x more => exact hescape x more rfl hleft
      rw [undoEscapes, hraw, Option.map_some]
      · exact fun heq => absurd heq hplain
      · exact fun _ _ heq => absurd heq hplain
  | case8 => cases h

/-- The content of a string ends with the source, or before a line break, a comment, a hole or
the closing quotes. -/
theorem content_stops {quotes column last : Nat} {cs text left : List Char}
    (h : content quotes column cs = .ok (text, last, left)) :
    left = [] ∨ ∃ ch rest, left = ch :: rest ∧
      (ch = '\n' ∨ ch = '#' ∨ ch = '{' ∨ startsWithQuotes quotes left = true) := by
  fun_induction content quotes column cs generalizing text last left with
  | case1 =>
    obtain ⟨-, -, rfl⟩ := by simpa using h
    exact .inl rfl
  | case2 | case3 | case5 | case8 => cases h
  | case4 _ _ _ _ _ _ _ _ hrec ih =>
    obtain ⟨-, -, rfl⟩ := by simpa using h
    exact ih hrec
  | case6 _ ch rest _ _ hstops =>
    obtain ⟨-, -, rfl⟩ := by simpa using h
    simp only [Bool.or_eq_true, beq_iff_eq, or_assoc] at hstops
    exact .inr ⟨ch, rest, rfl, hstops⟩
  | case7 _ _ _ _ _ _ _ _ _ hrec ih =>
    obtain ⟨-, -, rfl⟩ := by simpa using h
    exact ih hrec

theorem readContent_passes {quotes : Nat} {c d : Cursor} {text : List Char}
    (h : readContent quotes c = .ok (text, d)) :
    ∃ raw, c.Passes raw d ∧ undoEscapes raw = some text := by
  unfold readContent at h
  split at h
  · rename_i hcontent
    obtain ⟨rfl, rfl⟩ := Prod.mk.inj (Except.ok.inj h)
    obtain ⟨raw, hrest, hlast, hline, hraw⟩ := content_spec hcontent
    exact ⟨raw, ⟨hrest, rfl, hlast, rfl, hline⟩, hraw⟩
  · cases h

theorem startsWithQuotes_of_readContent {quotes : Nat} {c d : Cursor} {text rest : List Char}
    (h : readContent quotes c = .ok (text, d)) (hrest : d.rest = '"' :: rest) :
    startsWithQuotes quotes d.rest = true := by
  unfold readContent at h
  split at h
  · rename_i hcontent
    obtain ⟨rfl, rfl⟩ := Prod.mk.inj (Except.ok.inj h)
    rcases content_stops hcontent with hnil | ⟨ch, more, hmore, hstops⟩
    · rw [hnil] at hrest
      cases hrest
    · obtain ⟨rfl, -⟩ := List.cons.inj (hmore.symm.trans hrest)
      simpa using hstops
  · cases h

/-- Where neither a hole nor the closing quotes follow, the content ends with its line. -/
theorem atLineEnd_of_readContent {quotes : Nat} {c d : Cursor} {text : List Char}
    (h : readContent quotes c = .ok (text, d)) (hquotes : 0 < quotes)
    (hhole : ∀ rest, d.rest ≠ '{' :: rest) (hclose : ∀ rest, d.rest ≠ '"' :: rest) :
    d.atLineEnd = true := by
  unfold readContent at h
  split at h
  · rename_i hcontent
    obtain ⟨rfl, rfl⟩ := Prod.mk.inj (Except.ok.inj h)
    rcases content_stops hcontent with hnil | ⟨ch, rest, hrest, hch⟩
    · simp [Cursor.atLineEnd, hnil]
    · rcases hch with rfl | rfl | rfl | hstarts
      · simp [Cursor.atLineEnd, hrest]
      · simp [Cursor.atLineEnd, hrest]
      · exact absurd hrest (hhole rest)
      · obtain ⟨n, rfl⟩ := Nat.exists_eq_succ_of_ne_zero (Nat.ne_of_gt hquotes)
        rw [startsWithQuotes, hrest, beq_iff_eq, List.replicate_succ] at hstarts
        obtain ⟨rfl, -⟩ := List.cons.inj hstarts
        exact absurd hrest (hclose rest)
  · cases h

/-- The tokens of a fragment are texts that stand on the line where the fragment starts. -/
theorem mem_fragment {text : List Char} {c d : Cursor} {raw : List Char} (h : c.Passes raw d)
    (htext : undoEscapes raw = some text) {t : Token} (ht : t ∈ fragment text c d) :
    t.kind = .text ∧ t.WellMade ∧ t.line = c.line := by
  unfold fragment at ht
  split at ht
  · cases ht
  · rename_i hempty
    obtain rfl := List.mem_singleton.mp ht
    have hraw : raw ≠ [] := by
      rintro rfl
      exact hempty (by simpa using length_le_of_undoEscapes htext)
    exact ⟨rfl, ⟨trivial, columns_tokenBetween h hraw⟩, rfl⟩

end Lexer

end DialogScript
