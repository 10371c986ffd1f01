import DialogScript.Proofs.Lexing.Steps
import DialogScript.Proofs.Printing.Syntax

/-!
# Reading lexemes

What the lexer makes of a text that is known piece by piece. `Lexer.Yields lx ts next` says that
the lexer gives the tokens `ts` and then those of the state `next`; `lx.after cs rest` is the
state in which the text `cs` of the line has been read and `rest` is left.

A lexeme (`IsLexeme`) is a text that code reads as one token. Which lexeme a text starts with also
depends on what follows it, since numbers, names and signs are read as far as they go: `Closes`
says that the text goes on with a character that ends every one of them.
-/

namespace DialogScript

open Text

namespace Lexer

variable {lx mid next : Lexer} {ts us : List Token} {t : Token} {cs ds rest : List Char}

/-! ### Runs -/

/-- The lexer gives some tokens and then those of another state. -/
def Yields (lx : Lexer) (ts : List Token) (next : Lexer) : Prop :=
  lx.tokens = next.tokens.prepend ts

/-- The tokens of two parts of the text, one after the other. -/
theorem Yields.trans (h : lx.Yields ts mid) (h' : mid.Yields us next) :
    lx.Yields (ts ++ us) next := by
  rw [Yields, h, h', Listing.prepend, Listing.prepend, Listing.prepend, List.append_assoc]

/-- A step gives its tokens in front of the others. -/
theorem yields_of_step (h : lx.step = .more ts next) : lx.Yields ts next := by
  rw [Yields, tokens_eq, h]

/-- The state in which the text `cs` of the line is read and `rest` is left. -/
def after (lx : Lexer) (cs rest : List Char) : Lexer :=
  lx.moveTo (lx.cursor.forward cs.length rest)

@[simp]
theorem rest_after (lx : Lexer) (cs rest : List Char) : (lx.after cs rest).cursor.rest = rest :=
  rfl

/-- To read two parts is to read them as one. -/
@[simp]
theorem after_after (lx : Lexer) (cs ds rest rest' : List Char) :
    (lx.after cs rest).after ds rest' = lx.after (cs ++ ds) rest' := by
  simp [after, moveTo, Cursor.forward, Nat.add_assoc]

@[simp]
theorem pop_after (lx : Lexer) (cs rest : List Char) :
    (lx.after cs rest).pop = lx.pop.after cs rest := rfl

@[simp]
theorem pop_push (lx : Lexer) (m : Mode) : (lx.push m).pop = lx := rfl

/-- The lexer stands within a line, and the line has tokens already. -/
structure MidLine (lx : Lexer) : Prop where
  lineOpen : lx.lineOpen = true
  column : 1 < lx.cursor.column

theorem MidLine.after (h : lx.MidLine) (cs rest : List Char) : (lx.after cs rest).MidLine :=
  ⟨h.lineOpen, Nat.lt_of_lt_of_le h.column (Nat.le_add_right _ _)⟩

theorem MidLine.push (h : lx.MidLine) (m : Mode) : (lx.push m).MidLine := ⟨h.lineOpen, h.column⟩

/-- The lexer stands within a line of code or in a hole. -/
structure InCode (lx : Lexer) : Prop extends lx.MidLine where
  isCode : lx.mode.isString = false

theorem InCode.after (h : lx.InCode) (cs rest : List Char) : (lx.after cs rest).InCode :=
  ⟨h.toMidLine.after cs rest, h.isCode⟩

/-- An open line stays open until it ends. -/
theorem lineOpenAfter_eq_true (h : ∀ t ∈ ts, t.kind ≠ .lineEnd) : lineOpenAfter true ts = true := by
  induction ts with
  | nil => rfl
  | cons t ts ih =>
    have hrest := ih fun u hu => h u (List.mem_cons_of_mem t hu)
    have hkind := h t (by simp)
    rw [lineOpenAfter, List.foldl_cons]
    split
    · contradiction
    · exact hrest
    · exact hrest
    · exact hrest

private theorem yields_of_stepTo (hstep : lx.step = stepTo lx [] (.ok (ts, next)))
    (hlx : lx.MidLine)
    (hnext : next.lineOpen = true) (hts : ∀ t ∈ ts, t.kind ≠ .lineEnd) : lx.Yields ts next := by
  refine yields_of_step (hstep.trans ?_)
  rw [stepTo, List.nil_append, hlx.lineOpen, lineOpenAfter_eq_true hts, ← hnext]

/-- Within a line of code, a step reads one token. -/
theorem step_of_inCode (h : lx.InCode) : lx.step = codeStep lx [] := by
  have hcolumn : lx.cursor.atLineStart = false := by
    have := h.column
    simp [Cursor.atLineStart]
    omega
  have hcode := h.isCode
  unfold step
  split
  · simp_all [Mode.isString]
  · simp_all [Mode.isString]
  · rfl
  · rw [hcolumn, Bool.false_and, if_neg (by decide)]

/-- What is read from code within a line is given. -/
theorem yields_of_code (h : lx.InCode) (hread : lx.cursor.rest ≠ [])
    (hcode : lx.code = .ok (ts, next)) (hnext : next.lineOpen = true)
    (hts : ∀ t ∈ ts, t.kind ≠ .lineEnd) : lx.Yields ts next := by
  refine yields_of_stepTo ?_ h.toMidLine hnext hts
  have hcanRead : lx.cursor.canRead = true := by simp [Cursor.canRead, hread]
  rw [step_of_inCode h, codeStep, if_pos hcanRead, hcode]

/-! ### Lexemes -/

/-- The characters that end every lexeme before them. -/
def closers : List Char := [' ', ')', '}', '\n']

/-- The text goes on with a character that ends every lexeme. -/
def Closes (rest : List Char) : Prop := ∃ c more, rest = c :: more ∧ c ∈ closers

theorem closes_cons {c : Char} (hc : c ∈ closers) (rest : List Char) : Closes (c :: rest) :=
  ⟨c, rest, rfl, hc⟩

theorem Closes.append_ne_nil (h : Closes rest) (cs : List Char) : cs ++ rest ≠ [] := by
  obtain ⟨c, more, rfl, -⟩ := h
  simp

/-- A class of characters that holds no closer is left at one. -/
theorem takeWhile_closes {p : Char → Bool} (hcs : ∀ c ∈ cs, p c = true) (hrest : Closes rest)
    (hp : closers.all (!p ·) = true) :
    (cs ++ rest).takeWhile p = cs ∧ (cs ++ rest).dropWhile p = rest := by
  obtain ⟨c, more, rfl, hc⟩ := hrest
  refine takeWhile_run hcs fun d hd => ?_
  obtain rfl : c = d := by simpa using hd
  simpa using List.all_eq_true.mp hp c hc

/-- A text starts with a character that is neither blank nor the end of a line. -/
def StartsInk (cs : List Char) : Prop :=
  ∃ c more, cs = c :: more ∧ Cursor.isIndentChar c = false ∧ c ≠ '\n' ∧ c ≠ '#'

theorem StartsInk.append (h : StartsInk cs) (rest : List Char) : StartsInk (cs ++ rest) := by
  obtain ⟨c, more, rfl, hc⟩ := h
  exact ⟨c, more ++ rest, rfl, hc⟩

theorem StartsInk.ne_nil (h : StartsInk cs) : cs ≠ [] := by
  obtain ⟨c, more, rfl, -⟩ := h
  simp

private theorem skipBlanks_of_startsInk {c : Cursor} (h : StartsInk c.rest) : c.skipBlanks = c := by
  obtain ⟨ch, more, hrest, hblank, -⟩ := h
  exact Cursor.skipBlanks_eq_self hrest hblank

theorem atLineEnd_of_startsInk {c : Cursor} (h : StartsInk c.rest) : c.atLineEnd = false := by
  obtain ⟨ch, more, hrest, -, hbreak, hcomment⟩ := h
  simp [Cursor.atLineEnd, hrest, hbreak, hcomment]

/-- Before `rest`, the text `cs` is read as one token of a kind. -/
structure IsLexeme (cs rest : List Char) (kind : TokenKind) : Prop where
  startsInk : StartsInk cs
  isSimple : isSimple kind = true
  code : ∀ lx : Lexer, lx.cursor.rest = cs ++ rest →
    lx.code = .ok ([tokenBetween kind cs lx.cursor (lx.after cs rest).cursor], lx.after cs rest)

private theorem startsInk_digits (h : Numeral.IsDigits cs) : StartsInk cs := by
  obtain ⟨hne, hdigits⟩ := h
  cases cs with
  | nil => exact absurd rfl hne
  | cons c more =>
    have hc := hdigits c (by simp)
    refine ⟨c, more, rfl, ?_, ?_, ?_⟩
    · obtain ⟨hlow, -⟩ := Numeral.isAsciiDigit_iff.mp hc
      rw [Cursor.isIndentChar, Bool.or_eq_false_iff, beq_eq_false_iff_ne, beq_eq_false_iff_ne]
      constructor <;> rintro rfl <;> exact absurd hlow (by decide)
    · rintro rfl
      exact absurd hc (by decide)
    · rintro rfl
      exact absurd hc (by decide)

/-- Code that starts with a digit is read as a number. -/
theorem code_of_digits {last : Cursor} (hcs : Numeral.IsDigits cs)
    (hrest : lx.cursor.rest = cs ++ rest) (h : number lx.cursor = .ok (t, last)) :
    lx.code = .ok ([t], lx.moveTo last) := by
  have hink : StartsInk lx.cursor.rest := hrest ▸ (startsInk_digits hcs).append rest
  obtain ⟨hne, hdigits⟩ := hcs
  cases cs with
  | nil => exact absurd rfl hne
  | cons c more =>
    rw [List.cons_append] at hrest
    simp only [code, skipBlanks_of_startsInk hink, hrest, atLineEnd_of_startsInk hink,
      Bool.false_eq_true, if_false, hdigits c (by simp), if_true, h]

/-- Digits are read as an integer. -/
theorem isLexeme_integer (hcs : Numeral.IsDigits cs) (hrest : Closes rest) :
    IsLexeme cs rest .integer where
  startsInk := startsInk_digits hcs
  isSimple := rfl
  code lx hlx := by
    obtain ⟨htake, hdrop⟩ := takeWhile_closes hcs.2 hrest (by decide)
    refine code_of_digits hcs hlx ?_
    obtain ⟨c, more, rfl, hc⟩ := hrest
    have hpoint : c ≠ '.' := by
      rintro rfl
      exact absurd hc (by decide)
    simp only [number, Cursor.takeWhile, hlx, htake, hdrop]
    split
    · rename_i heq
      simp [Cursor.forward, hpoint] at heq
    · rfl

/-- Digits with a point between them are read as a float. -/
theorem isLexeme_float {whole fraction : List Char} (hwhole : Numeral.IsDigits whole)
    (hfraction : Numeral.IsDigits fraction) (hrest : Closes rest) :
    IsLexeme (whole ++ '.' :: fraction) rest .float where
  startsInk := (startsInk_digits hwhole).append _
  isSimple := rfl
  code lx hlx := by
    rw [List.append_assoc, List.cons_append] at hlx
    obtain ⟨htake, hdrop⟩ := takeWhile_run hwhole.2 (Numeral.head?_point (fraction ++ rest))
    obtain ⟨htake', hdrop'⟩ := takeWhile_closes hfraction.2 hrest (by decide)
    refine code_of_digits hwhole hlx ?_
    simp only [number, Cursor.takeWhile, hlx, htake, hdrop, Cursor.forward, htake', hdrop']
    rw [if_neg (by simp [hfraction.1])]
    simp [after, moveTo, Cursor.forward, Nat.add_assoc, Nat.add_comm 1]

theorem continuesName_of_startsName {c : Char} (h : Cursor.startsName c = true) :
    Cursor.continuesName c = true := by
  rw [Cursor.startsName, Bool.or_eq_true] at h
  rw [Cursor.continuesName, Bool.or_eq_true, Bool.or_eq_true]
  exact h.elim (fun h => Or.inl (Or.inl h)) Or.inr

/-- Letters come after the digits, the blanks and most of the signs. -/
theorem le_of_startsName {c : Char} (h : Cursor.startsName c = true) : 65 ≤ c.toNat := by
  refine Nat.le_of_not_lt fun hlow => ?_
  have hletter : isLetter c = false := by
    unfold isLetter letterRanges
    rw [inRanges, if_pos hlow]
  rw [Cursor.startsName, hletter, Bool.false_or, beq_iff_eq] at h
  subst h
  exact absurd hlow (by decide)

private theorem isAsciiDigit_of_startsName {c : Char} (h : Cursor.startsName c = true) :
    isAsciiDigit c = false := by
  rw [Bool.eq_false_iff]
  intro hdigit
  have := (Numeral.isAsciiDigit_iff.mp hdigit).2
  have := le_of_startsName h
  omega

private theorem startsInk_of_startsName {c : Char} (h : Cursor.startsName c = true)
    (more : List Char) :
    StartsInk (c :: more) := by
  have hlow := le_of_startsName h
  refine ⟨c, more, rfl, ?_, ?_, ?_⟩
  · rw [Cursor.isIndentChar, Bool.or_eq_false_iff, beq_eq_false_iff_ne, beq_eq_false_iff_ne]
    constructor <;> rintro rfl <;> exact absurd hlow (by decide)
  · rintro rfl
    exact absurd hlow (by decide)
  · rintro rfl
    exact absurd hlow (by decide)

/-- A word is read as far as its characters may continue a name. -/
theorem isLexeme_word {c : Char} {more : List Char} {kind : TokenKind}
    (hc : Cursor.startsName c = true) (hmore : ∀ d ∈ more, Cursor.continuesName d = true)
    (hkind : (match Keyword.ofSpelling? (String.ofList (c :: more)) with
      | some keyword => TokenKind.keyword keyword
      | none => .name) = kind) (hrest : Closes rest) :
    IsLexeme (c :: more) rest kind where
  startsInk := startsInk_of_startsName hc more
  isSimple := by
    rw [← hkind]
    split <;> rfl
  code lx hlx := by
    have hink : StartsInk lx.cursor.rest := hlx ▸ (startsInk_of_startsName hc more).append rest
    have hword : ∀ d ∈ c :: more, Cursor.continuesName d = true := by
      intro d hd
      rcases List.mem_cons.mp hd with rfl | hd
      · exact continuesName_of_startsName hc
      · exact hmore d hd
    obtain ⟨htake, hdrop⟩ := takeWhile_closes hword hrest (by decide)
    have hrest' := hlx
    rw [List.cons_append] at hrest'
    simp only [code, skipBlanks_of_startsInk hink, atLineEnd_of_startsInk hink]
    simp only [hrest', Bool.false_eq_true, if_false, isAsciiDigit_of_startsName hc, hc, if_true,
      word, Cursor.takeWhile]
    rw [← List.cons_append, htake, hdrop, ← hkind]
    rfl

/-- The text of a name is read as a name. -/
theorem isLexeme_name {s : String} (h : isNameText s = true) (hrest : Closes rest) :
    IsLexeme s.toList rest .name := by
  unfold isNameText at h
  split at h
  · contradiction
  · rename_i c more hs
    rw [Bool.and_eq_true, Bool.and_eq_true, List.all_eq_true, Option.isNone_iff_eq_none] at h
    obtain ⟨⟨hc, hmore⟩, hword⟩ := h
    rw [hs]
    refine isLexeme_word hc hmore ?_ hrest
    rw [← hs, String.ofList_toList, hword]

/-- The spelling of a keyword is read as the keyword. -/
theorem isLexeme_keyword (k : Keyword) (hrest : Closes rest) :
    IsLexeme k.spelling.toList rest (.keyword k) := by
  have hletters : ∃ c more, k.spelling.toList = c :: more ∧ Cursor.startsName c = true ∧
      more.all Cursor.continuesName = true := by
    cases k <;> exact ⟨_, _, rfl, by decide, by decide⟩
  obtain ⟨c, more, hk, hc, hmore⟩ := hletters
  have hspelling : Keyword.ofSpelling? k.spelling = some k := by
    cases k <;> decide
  rw [hk]
  refine isLexeme_word hc (List.all_eq_true.mp hmore) ?_ hrest
  rw [← hk, String.ofList_toList, hspelling]

/-- A sign is read where no longer one starts. -/
theorem isLexeme_sign (s : Sign) (h : sign? (s.spelling.toList ++ rest) = some s) :
    IsLexeme s.spelling.toList rest (.sign s) := by
  have hhead : ∃ c more, s.spelling.toList = c :: more ∧ StartsInk (c :: more) ∧
      isAsciiDigit c = false ∧ Cursor.startsName c = false ∧ c ≠ '"' ∧ c ≠ '}' := by
    cases s <;>
      exact ⟨_, _, rfl, ⟨_, _, rfl, by decide, by decide, by decide⟩, by decide, by decide,
        by decide, by decide⟩
  obtain ⟨c, more, hs, hink, hdigit, hname, hquote, hbrace⟩ := hhead
  refine ⟨hs ▸ hink, rfl, fun lx hlx => ?_⟩
  have hink' : StartsInk lx.cursor.rest := by
    rw [hlx, hs]
    exact hink.append rest
  have hrest : lx.cursor.rest = c :: (more ++ rest) := by rw [hlx, hs, List.cons_append]
  simp only [code, skipBlanks_of_startsInk hink', atLineEnd_of_startsInk hink']
  rw [← hlx] at h
  simp only [h]
  simp only [hrest, Bool.false_eq_true, if_false, hdigit, hname, hquote, hbrace, false_and, sign]
  rw [← hrest, hlx, List.drop_left]
  rfl

theorem isLexeme_openParen (rest : List Char) : IsLexeme ['('] rest (.sign .openParen) :=
  isLexeme_sign .openParen (by cases rest <;> rfl)

theorem isLexeme_closeParen (rest : List Char) : IsLexeme [')'] rest (.sign .closeParen) :=
  isLexeme_sign .closeParen (by cases rest <;> rfl)

theorem isLexeme_minus (rest : List Char) : IsLexeme ['-'] rest (.sign .minus) :=
  isLexeme_sign .minus (by cases rest <;> rfl)

/-- An operator is read as its token if a blank follows. -/
theorem isLexeme_operator (op : BinaryOperator) (rest : List Char) :
    IsLexeme op.symbol.toList (' ' :: rest) op.tokenKind := by
  have hrest : Closes (' ' :: rest) := closes_cons (by decide) rest
  cases op with
  | and => exact isLexeme_keyword .andWord hrest
  | or => exact isLexeme_keyword .orWord hrest
  | xor => exact isLexeme_keyword .xorWord hrest
  | equal => exact isLexeme_sign .equal rfl
  | notEqual => exact isLexeme_sign .notEqual rfl
  | greater => exact isLexeme_sign .greater rfl
  | less => exact isLexeme_sign .less rfl
  | greaterOrEqual => exact isLexeme_sign .greaterOrEqual rfl
  | lessOrEqual => exact isLexeme_sign .lessOrEqual rfl
  | add => exact isLexeme_sign .plus rfl
  | sub => exact isLexeme_sign .minus rfl
  | mul => exact isLexeme_sign .times rfl
  | div => exact isLexeme_sign .divide rfl
  | mod => exact isLexeme_sign .percent rfl

/-! ### Steps within a line -/

private theorem kind_ne_lineEnd_of_isSimple {kind : TokenKind} (h : isSimple kind = true) :
    kind ≠ .lineEnd := by
  rintro rfl
  cases h

/-- A lexeme is given as one token of its kind. -/
theorem IsLexeme.yields {kind : TokenKind} (h : IsLexeme cs rest kind) (hlx : lx.InCode)
    (hrest : lx.cursor.rest = cs ++ rest) :
    ∃ t : Token, t.kind = kind ∧ t.text = String.ofList cs ∧ lx.Yields [t] (lx.after cs rest) := by
  obtain ⟨c, more, rfl, -⟩ := h.startsInk
  refine ⟨_, rfl, rfl, yields_of_code hlx (by simp [hrest]) (h.code lx hrest) hlx.lineOpen ?_⟩
  simpa using kind_ne_lineEnd_of_isSimple h.isSimple

/-- A blank before more text gives no token. -/
theorem yields_blank (hlx : lx.InCode) (hrest : lx.cursor.rest = ' ' :: rest) (hne : rest ≠ []) :
    lx.Yields [] (lx.after [' '] rest) := by
  have hskip : (lx.after [' '] rest).cursor.skipBlanks = lx.cursor.skipBlanks := by
    simp [Cursor.skipBlanks, Cursor.takeWhile, hrest, Cursor.forward, after, moveTo,
      Cursor.isIndentChar, Nat.add_assoc, Nat.add_comm 1]
  have hcode : (lx.after [' '] rest).code = lx.code := by
    unfold code
    rw [hskip]
    rfl
  have hstep : (lx.after [' '] rest).step = lx.step := by
    rw [step_of_inCode hlx, step_of_inCode (hlx.after [' '] rest), codeStep, codeStep, hcode,
      if_pos (by simp [Cursor.canRead, hne]), if_pos (by simp [Cursor.canRead, hrest])]
    rfl
  rw [Yields, tokens_eq lx, ← hstep, ← tokens_eq]
  rfl

/-- The end of a line closes it. -/
theorem yields_lineEnd (hlx : lx.InCode) (hmode : lx.mode = .code)
    (hrest : lx.cursor.rest = '\n' :: rest) :
    lx.Yields [.atSpan .lineEnd "\n" lx.cursor.point]
      { lx.moveTo (lx.cursor.nextLine rest) with lineOpen := false } := by
  have hskip : lx.cursor.skipBlanks = lx.cursor := Cursor.skipBlanks_eq_self hrest (by decide)
  have hend : lx.cursor.atLineEnd = true := by simp [Cursor.atLineEnd, hrest]
  have hread : lx.cursor.read? = some ('\n', lx.cursor.nextLine rest) := by
    simp [Cursor.read?, hrest]
  have hcode : lx.code = .ok ([.atSpan .lineEnd "\n" lx.cursor.point],
      lx.moveTo (lx.cursor.nextLine rest)) := by
    have hhole : lx.mode ≠ .hole := by simp [hmode]
    simp only [code, hskip, hrest, hend, if_true, if_neg hhole, hread]
  refine yields_of_step ?_
  rw [step_of_inCode hlx, codeStep, if_pos (by simp [Cursor.canRead, hrest]), hcode]
  rfl

/-- A brace closes a hole. -/
theorem yields_holeEnd (hlx : lx.InCode) (hmode : lx.mode = .hole)
    (hrest : lx.cursor.rest = '}' :: rest) :
    ∃ t : Token, t.kind = .holeEnd ∧ lx.Yields [t] (lx.pop.after ['}'] rest) := by
  have hink : StartsInk lx.cursor.rest := ⟨'}', rest, hrest, by decide, by decide, by decide⟩
  refine ⟨.atSpan .holeEnd "\x7d" lx.cursor.point, rfl, ?_⟩
  refine yields_of_code hlx (by simp [hrest]) ?_ hlx.lineOpen (by simp [Token.atSpan])
  have hdigit : isAsciiDigit '}' = false := by decide
  have hname : Cursor.startsName '}' = false := by decide
  have hquote : '}' ≠ '"' := by decide
  simp only [code, skipBlanks_of_startsInk hink, atLineEnd_of_startsInk hink]
  simp only [hrest, Bool.false_eq_true, if_false, hdigit, hname, hquote, hmode, and_self, if_true]
  rfl

/-! ### Strings -/

theorem code_of_quote (hrest : lx.cursor.rest = '"' :: rest) :
    lx.code = openString lx lx.cursor := by
  have hink : StartsInk lx.cursor.rest := ⟨'"', rest, hrest, by decide, by decide, by decide⟩
  have hdigit : isAsciiDigit '"' = false := by decide
  have hname : Cursor.startsName '"' = false := by decide
  simp only [code, skipBlanks_of_startsInk hink, atLineEnd_of_startsInk hink]
  simp only [hrest, Bool.false_eq_true, if_false, hdigit, hname, if_true]

/-- A single quote opens a string on the line. -/
theorem yields_stringStart (hlx : lx.InCode) (hrest : lx.cursor.rest = '"' :: rest)
    (hquote : rest.head? ≠ some '"') :
    ∃ t : Token, t.kind = .stringStart ∧
      lx.Yields [t] ((lx.push .lineString).after ['"'] rest) := by
  refine ⟨tokenBetween .stringStart ['"'] lx.cursor (lx.after ['"'] rest).cursor, rfl, ?_⟩
  refine yields_of_code hlx (by simp [hrest]) ?_ hlx.lineOpen (by simp)
  have hone : ∀ c ∈ ['"'], (c == '"') = true := by simp
  have hnext : ∀ c, rest.head? = some c → (c == '"') = false := by
    intro c hc
    rw [beq_eq_false_iff_ne]
    rintro rfl
    exact hquote hc
  obtain ⟨htake, hdrop⟩ := takeWhile_run hone hnext
  rw [List.singleton_append, ← hrest] at htake hdrop
  rw [code_of_quote hrest]
  simp only [openString, quoteRun, Cursor.takeWhile, htake, hdrop]
  rfl

/-- Two quotes are an empty text. -/
theorem yields_emptyText (hlx : lx.InCode) (hrest : lx.cursor.rest = '"' :: '"' :: rest)
    (hclose : Closes rest) :
    ∃ t : Token, t.kind = .text ∧ t.text = "" ∧ lx.Yields [t] (lx.after ['"', '"'] rest) := by
  refine ⟨tokenBetween .text [] lx.cursor (lx.after ['"', '"'] rest).cursor, rfl, rfl, ?_⟩
  refine yields_of_code hlx (by simp [hrest]) ?_ hlx.lineOpen (by simp)
  have htwo : ∀ c ∈ ['"', '"'], (c == '"') = true := by simp
  obtain ⟨htake, hdrop⟩ := takeWhile_closes htwo hclose (by decide)
  rw [List.cons_append, List.singleton_append, ← hrest] at htake hdrop
  rw [code_of_quote hrest]
  simp only [openString, quoteRun, Cursor.takeWhile, htake, hdrop]
  rfl

@[simp]
theorem escape_nil : escape [] = [] := rfl

/-- A character is read back from how it is escaped. -/
theorem content_escapeChar {quotes column last : Nat} {c : Char} {text left : List Char}
    (hcomment : c ≠ '#') (hquotes : startsWithQuotes quotes (c :: rest) = false)
    (h : content quotes (column + (escapeChar c).length) rest = .ok (text, last, left)) :
    content quotes column (escapeChar c ++ rest) = .ok (c :: text, last, left) := by
  unfold escapeChar at h ⊢
  by_cases hslash : c = '\\'
  · subst hslash
    simp_all [content, unescape?]
  by_cases hbrace : c = '{'
  · subst hbrace
    simp_all [content, unescape?]
  by_cases hbreak : c = '\n'
  · subst hbreak
    simp_all [content, unescape?]
  by_cases hreturn : c = '\r'
  · subst hreturn
    simp_all [content, unescape?]
  -- All other characters stand for themselves, and none of them ends the text.
  simp only [hslash, hbrace, hbreak, hreturn, if_false] at h ⊢
  have hends :
      (c == '\n' || c == '#' || c == '{' || startsWithQuotes quotes (c :: rest)) = false := by
    simp [hbreak, hcomment, hbrace, hquotes]
  rw [List.singleton_append, content]
  · rw [List.length_singleton] at h
    rw [hends, if_neg (by decide), h]
  · simp [hslash]
  · simp [hslash]

/-- Text that was written with escapes is read up to the hole or the quote that follows it. -/
theorem content_escape {text : List Char} (htext : ∀ c ∈ text, c ∉ unwritable) {stop : Char}
    (hstop : stop = '{' ∨ stop = '"') (rest : List Char) (column : Nat) :
    content 1 column (escape text ++ stop :: rest) =
      .ok (text, column + (escape text).length, stop :: rest) := by
  induction text generalizing column with
  | nil => rcases hstop with rfl | rfl <;> simp [escape, content, startsWithQuotes]
  | cons c text ih =>
    have hrest := ih (fun d hd => htext d (List.mem_cons_of_mem c hd))
      (column + (escapeChar c).length)
    have hc := htext c (by simp)
    simp only [unwritable, List.mem_cons, not_or] at hc
    rw [escape, List.flatMap_cons, List.append_assoc, List.length_append, ← Nat.add_assoc]
    exact content_escapeChar hc.2.1 (by simp [startsWithQuotes, hc.1]) hrest

private theorem readContent_escape {c : Cursor} {text : List Char}
    (htext : ∀ c ∈ text, c ∉ unwritable)
    {stop : Char} (hstop : stop = '{' ∨ stop = '"') (hrest : c.rest = escape text ++ stop :: rest) :
    readContent 1 c = .ok (text, c.forward (escape text).length (stop :: rest)) := by
  rw [readContent, hrest, content_escape htext hstop]
  rfl

private theorem step_of_lineString (hmode : lx.mode = .lineString) :
    lx.step = stepTo lx [] lx.lineString := by
  simp only [step, hmode]

private theorem kind_of_mem_fragment {text : List Char} {c d : Cursor}
    (ht : t ∈ fragment text c d) :
    t.kind = .text := by
  unfold fragment at ht
  split at ht
  · simp at ht
  · simp_all

private theorem yields_of_lineString (hlx : lx.MidLine) (hmode : lx.mode = .lineString)
    {text : List Char} {c d : Cursor} (hline : lx.lineString = .ok (fragment text c d ++ [t], next))
    (hnext : next.lineOpen = true) (ht : t.kind ≠ .lineEnd) :
    lx.Yields (fragment text c d ++ [t]) next := by
  refine yields_of_stepTo ?_ hlx hnext ?_
  · rw [step_of_lineString hmode, hline]
  · intro u hu
    rcases List.mem_append.mp hu with hu | hu
    · simp [kind_of_mem_fragment hu]
    · rwa [List.mem_singleton.mp hu]

/-- A string is read up to its next hole. -/
theorem yields_holeStart (hlx : lx.MidLine) (hmode : lx.mode = .lineString) {text : List Char}
    (htext : ∀ c ∈ text, c ∉ unwritable) (hrest : lx.cursor.rest = escape text ++ '{' :: rest) :
    ∃ t : Token, t.kind = .holeStart ∧
      lx.Yields (fragment text lx.cursor (lx.after (escape text) ('{' :: rest)).cursor ++ [t])
        ((lx.push .hole).after (escape text ++ ['{']) rest) := by
  refine ⟨.atSpan .holeStart "\x7b" (lx.after (escape text) ('{' :: rest)).cursor.point, rfl, ?_⟩
  refine yields_of_lineString hlx hmode ?_ hlx.lineOpen (by simp [Token.atSpan])
  simp only [lineString, readContent_escape htext (Or.inl rfl) hrest]
  simp [Cursor.forward, after, moveTo, push, Nat.add_assoc]

/-- A string is read up to its end. -/
theorem yields_stringEnd (hlx : lx.MidLine) (hmode : lx.mode = .lineString) {text : List Char}
    (htext : ∀ c ∈ text, c ∉ unwritable) (hrest : lx.cursor.rest = escape text ++ '"' :: rest) :
    ∃ t : Token, t.kind = .stringEnd ∧
      lx.Yields (fragment text lx.cursor (lx.after (escape text) ('"' :: rest)).cursor ++ [t])
        (lx.pop.after (escape text ++ ['"']) rest) := by
  refine ⟨.atSpan .stringEnd "\"" (lx.after (escape text) ('"' :: rest)).cursor.point, rfl, ?_⟩
  refine yields_of_lineString hlx hmode ?_ hlx.lineOpen (by simp [Token.atSpan])
  simp only [lineString, readContent_escape htext (Or.inr rfl) hrest]
  simp [Cursor.forward, after, moveTo, pop, Nat.add_assoc]

end Lexer

end DialogScript
