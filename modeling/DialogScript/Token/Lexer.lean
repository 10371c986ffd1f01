import DialogScript.Cursor
import DialogScript.Listing

/-!
# From text to tokens

The lexer is a machine that takes one step at a time: each step reads some text and gives some
tokens. A stack of modes says what the text is read as: code, the inside of a string on one line,
the inside of a block string over several lines, or the expression in a hole of a string. A
second stack holds the widths of the indented blocks that are open.

Indentation is measured once per line of code. A wider line opens one block; a narrower one
closes blocks and has to land on the width of an open one. In a block string the indentation is
only held against the block that the string started in.

Every step that does not end the lexer leaves less text (`remaining_lt_of_step`); `Lexer.tokens`
lists the tokens of all steps.
-/

namespace DialogScript

open Text

/-- A string that may span lines. -/
structure BlockString where
  /-- How many quotes close the string. -/
  quotes : Nat
  /-- The indentation that its lines have. -/
  baseline : Nat
  /-- The line break read last, which counts only if more text follows. -/
  pending : Option Span
  quotes_pos : 0 < quotes
  deriving DecidableEq

/-- What text is read as. -/
inductive Mode where
  | code
  /-- Inside a string that ends on its line. -/
  | lineString
  /-- Inside a string that may span lines. -/
  | blockString (string : BlockString)
  /-- Inside an expression in a string. -/
  | hole
  deriving DecidableEq

/-- The state of the lexer. The stacks have their top first. -/
structure Lexer where
  cursor : Cursor
  modes : List Mode
  indents : List Nat
  /-- Whether the line has tokens that its end has to close. -/
  lineOpen : Bool
  deriving DecidableEq

/-- What a step of the lexer comes to. -/
inductive LexerStep where
  | more (tokens : List Token) (next : Lexer)
  | done (tokens : List Token)
  | fail (tokens : List Token) (error : SyntaxError)

namespace Lexer

/-- The lexer at the start of a text. -/
def ofText (text : String) : Lexer := ⟨Cursor.ofText text, [.code], [0], false⟩

/-- How much text is left. -/
def remaining (lx : Lexer) : Nat := lx.cursor.remaining

/-- What the text is read as. -/
def mode (lx : Lexer) : Mode := lx.modes.headD .code

/-- The width of the innermost open block. -/
def indentation (lx : Lexer) : Nat := lx.indents.headD 0

/-- The lexer at another place. -/
def moveTo (lx : Lexer) (cursor : Cursor) : Lexer := { lx with cursor := cursor }

/-- The lexer with another mode on top. -/
def push (lx : Lexer) (mode : Mode) : Lexer := { lx with modes := mode :: lx.modes }

/-- The lexer in the mode below. -/
def pop (lx : Lexer) : Lexer := { lx with modes := lx.modes.tail }

/-- The lexer with its top mode replaced. -/
def replaceTop (lx : Lexer) (mode : Mode) : Lexer := lx.pop.push mode

@[simp]
theorem remaining_moveTo (lx : Lexer) (c : Cursor) : (lx.moveTo c).remaining = c.remaining := rfl

@[simp]
theorem remaining_push (lx : Lexer) (m : Mode) : (lx.push m).remaining = lx.remaining := rfl

@[simp]
theorem remaining_pop (lx : Lexer) : lx.pop.remaining = lx.remaining := rfl

@[simp]
theorem remaining_replaceTop (lx : Lexer) (m : Mode) :
    (lx.replaceTop m).remaining = lx.remaining := rfl

/-! ### Code -/

/-- The token of the text between two cursors on one line. -/
def tokenBetween (kind : TokenKind) (text : List Char) (start stop : Cursor) : Token :=
  ⟨kind, String.ofList text, start.line, start.column, stop.column⟩

/-- Reads a number: digits, and a fraction if a point follows. -/
def number (c : Cursor) : Except SyntaxError (Token × Cursor) :=
  let (whole, last) := c.takeWhile isAsciiDigit
  match last.rest with
  | '.' :: rest =>
    let (fraction, last) := (last.forward 1 rest).takeWhile isAsciiDigit
    if fraction.isEmpty then .error ⟨.missingFraction, last.point⟩
    else .ok (tokenBetween .float (whole ++ '.' :: fraction) c last, last)
  | _ => .ok (tokenBetween .integer whole c last, last)

/-- Reads a name or a reserved word. -/
def word (c : Cursor) : Token × Cursor :=
  let (text, last) := c.takeWhile Cursor.continuesName
  let kind :=
    match Keyword.ofSpelling? (String.ofList text) with
    | some keyword => .keyword keyword
    | none => .name
  (tokenBetween kind text c last, last)

/-- The sign at the start of a text: of two signs the longer one. -/
def sign? (cs : List Char) : Option Sign :=
  match (Sign.all.find? fun s => s.spelling.toList == cs.take 2) with
  | some s => some s
  | none => Sign.all.find? fun s => s.spelling.toList == cs.take 1

/-- Reads a sign. -/
def sign (c : Cursor) (s : Sign) : Token × Cursor :=
  let spelling := s.spelling.toList
  let last := c.forward spelling.length (c.rest.drop spelling.length)
  (tokenBetween (.sign s) spelling c last, last)

/-- The longest run of quotes. -/
def quoteRun (c : Cursor) : List Char × Cursor := c.takeWhile (· == '"')

/-- The place past the end of the line, if nothing else is left on it. -/
def skipLineEnd (c : Cursor) : Cursor :=
  if c.atLineEnd then
    match c.read? with
    | some (_, next) => next
    | none => c
  else c

private theorem remaining_skipLineEnd_le (c : Cursor) :
    (skipLineEnd c).remaining ≤ c.remaining := by
  unfold skipLineEnd
  split
  · split
    · exact Nat.le_of_lt (Cursor.remaining_lt_of_read? (by assumption))
    · exact Nat.le_refl _
  · exact Nat.le_refl _

/-- Reads the quotes at the start of a string: one opens a string on this line, two are an empty
string, and more open a block string, which a hole cannot hold. A line break right after the
opening quotes of a block string is no part of it. -/
def openString (lx : Lexer) (c : Cursor) : Except SyntaxError (List Token × Lexer) :=
  let (quotes, last) := quoteRun c
  if h : 2 < quotes.length then
    if lx.modes.contains .hole then
      .error ⟨.blockStringInHole, Span.join c.point (Span.point last.line (last.column - 1))⟩
    else
      .ok ([tokenBetween .stringStart quotes c last],
        (lx.moveTo (skipLineEnd last)).push
          (.blockString ⟨quotes.length, lx.indentation, none, by omega⟩))
  else if quotes.length = 2 then
    .ok ([tokenBetween .text [] c last], lx.moveTo last)
  else .ok ([tokenBetween .stringStart quotes c last], (lx.moveTo last).push .lineString)

/-- Reads one token of code, or the end of a line. -/
def code (lx : Lexer) : Except SyntaxError (List Token × Lexer) :=
  let c := lx.cursor.skipBlanks
  match c.rest with
  | [] => .ok ([], lx.moveTo c)
  | ch :: rest =>
    if c.atLineEnd then
      if lx.mode = .hole then .error ⟨.unclosedHole, c.point⟩
      else
        match c.read? with
        | some (_, next) => .ok ([.atSpan .lineEnd "\n" c.point], lx.moveTo next)
        | none => .ok ([], lx.moveTo c)
    else if isAsciiDigit ch then
      match number c with
      | .ok (token, last) => .ok ([token], lx.moveTo last)
      | .error e => .error e
    else if Cursor.startsName ch then
      let (token, last) := word c
      .ok ([token], lx.moveTo last)
    else if ch = '"' then openString lx c
    else if ch = '}' ∧ lx.mode = .hole then
      .ok ([.atSpan .holeEnd "\x7d" c.point], (lx.moveTo (c.forward 1 rest)).pop)
    else
      match sign? c.rest with
      | some s =>
        let (token, last) := sign c s
        .ok ([token], lx.moveTo last)
      | none => .error ⟨.unexpectedSymbol ch, c.point⟩

/-- The widths of the blocks that a line of width `level` closes, and those that stay open. -/
def closeBlocks (level : Nat) (indents : List Nat) : List Nat × List Nat :=
  (indents.takeWhile (level < ·), indents.dropWhile (level < ·))

/-- Reads the indentation at the start of a line of code and gives the tokens of the blocks that
it opens or closes. -/
def lineIndentation (lx : Lexer) : List Token × Except SyntaxError Lexer :=
  match lx.cursor.readIndent none with
  | (.error e, _) => ([], .error e)
  | (.ok level, c) =>
    if !c.canRead then ([], .ok (lx.moveTo c))
    else if lx.indentation < level then
      ([⟨.indent, "", c.line, lx.indentation + 1, level + 1⟩],
        .ok { lx.moveTo c with indents := level :: lx.indents })
    else
      let (closed, left) := closeBlocks level lx.indents
      let tokens := closed.map fun _ => Token.atSpan .dedent "" (Span.point c.line (level + 1))
      if left.headD 0 = level then (tokens, .ok { lx.moveTo c with indents := left })
      else (tokens, .error ⟨.inconsistentIndentation, c.point⟩)

/-- The last step, at the end of the source: it closes a line that is still open and the open
blocks. -/
def finish (lx : Lexer) (before : List Token) : LexerStep :=
  if lx.mode = .code then
    let here := lx.cursor.point
    .done (before ++ (if lx.lineOpen then [.atSpan .lineEnd "\n" here] else [])
      ++ lx.indents.dropLast.map (fun _ => .atSpan .dedent "" here)
      ++ [.atSpan .sourceEnd "" here])
  else .fail before ⟨.unclosedHole, lx.cursor.point⟩

/-! ### Strings -/

/-- The character that an escape stands for. -/
def unescape? : Char → Option Char
  | 'n' => some '\n'
  | 't' => some '\t'
  | 'r' => some '\r'
  | '\\' => some '\\'
  | '{' => some '{'
  | '}' => some '}'
  | _ => none

/-- Whether a text starts with the given number of quotes. -/
def startsWithQuotes (quotes : Nat) (cs : List Char) : Bool :=
  cs.take quotes == List.replicate quotes '"'

/-- Reads the text of a string up to the end of the line, a hole or the closing quotes. Gives the
text with its escapes resolved, the column reached and what is left there, or the column of an
invalid escape and the character after its backslash. -/
def content (quotes : Nat) (column : Nat) :
    List Char → Except (Nat × Option Char) (List Char × Nat × List Char)
  | [] => .ok ([], column, [])
  | '\\' :: [] => .error (column, none)
  | '\\' :: ch :: rest =>
    match unescape? ch with
    | none => .error (column, some ch)
    | some plain =>
      match content quotes (column + 2) rest with
      | .ok (text, last, left) => .ok (plain :: text, last, left)
      | .error e => .error e
  | ch :: rest =>
    if ch == '\n' || ch == '#' || ch == '{' || startsWithQuotes quotes (ch :: rest) then
      .ok ([], column, ch :: rest)
    else
      match content quotes (column + 1) rest with
      | .ok (text, last, left) => .ok (ch :: text, last, left)
      | .error e => .error e

/-- Reads the text of a string from a cursor on. -/
def readContent (quotes : Nat) (c : Cursor) : Except SyntaxError (List Char × Cursor) :=
  match content quotes c.column c.rest with
  | .ok (text, column, left) => .ok (text, { c with rest := left, column := column })
  | .error (column, found) =>
    .error ⟨.invalidEscape found, Span.join (Span.point c.line column)
      (Span.point c.line (column + 1))⟩

/-- The token of a fragment of text, if the fragment is not empty. -/
def fragment (text : List Char) (start stop : Cursor) : List Token :=
  if text.isEmpty then [] else [tokenBetween .text text start stop]

/-- The token of a line break in a block string, if one waits. -/
def lineBreak (pending : Option Span) : List Token :=
  pending.toList.map (.atSpan .text "\n")

/-- Reads a string on one line up to its end or its next hole. -/
def lineString (lx : Lexer) : Except SyntaxError (List Token × Lexer) :=
  match readContent 1 lx.cursor with
  | .error e => .error e
  | .ok (text, c) =>
    match c.rest with
    | '{' :: rest =>
      .ok (fragment text lx.cursor c ++ [.atSpan .holeStart "\x7b" c.point],
        (lx.moveTo (c.forward 1 rest)).push .hole)
    | '"' :: rest =>
      .ok (fragment text lx.cursor c ++ [.atSpan .stringEnd "\"" c.point],
        (lx.moveTo (c.forward 1 rest)).pop)
    | _ => .error ⟨.unclosedString, c.point⟩

/-- The starts of the lines from one up to another. -/
def lineStarts (first count : Nat) : List Span :=
  (List.range count).map fun i => Span.point ((first + i : Nat) : Int) 1

/-- Reads the indentation of a line of a block string. The blank lines and comment lines before
it are line breaks of the string; of all breaks the last one keeps waiting. -/
def blockIndentation (string : BlockString) (start : Cursor) :
    List Token × Except SyntaxError (BlockString × Cursor) :=
  match start.readIndent (some string.baseline) with
  | (.error e, _) => ([], .error e)
  | (.ok level, c) =>
    let breaks := string.pending.toList ++ lineStarts start.line (c.line - start.line)
    let tokens := breaks.dropLast.map (.atSpan .text "\n")
    if c.canRead && level != string.baseline then
      (tokens, .error ⟨.inconsistentIndentation, c.point⟩)
    else (tokens, .ok ({ string with pending := breaks.getLast? }, c))

/-- Reads a block string from a place within a line up to the end of the line, its next hole or
its end. A line break that waits counts only if text follows or the string goes on. -/
def blockContent (lx : Lexer) (string : BlockString) (start : Cursor) :
    Except SyntaxError (List Token × Lexer) :=
  match readContent string.quotes start with
  | .error e => .error e
  | .ok (text, c) =>
    match c.rest with
    | [] => .error ⟨.unclosedString, c.point⟩
    | '{' :: rest =>
      .ok (lineBreak string.pending ++ fragment text start c ++ [.atSpan .holeStart "\x7b" c.point],
        ((lx.moveTo (c.forward 1 rest)).replaceTop
          (.blockString { string with pending := none })).push .hole)
    | '"' :: _ =>
      let last := c.forward string.quotes (c.rest.drop string.quotes)
      let before :=
        if text.isEmpty then [] else lineBreak string.pending ++ fragment text start c
      .ok (before ++ [tokenBetween .stringEnd (List.replicate string.quotes '"') c last],
        (lx.moveTo last).pop)
    | _ =>
      match c.read? with
      | some (_, next) =>
        .ok (lineBreak string.pending ++ fragment text start c,
          (lx.moveTo next).replaceTop (.blockString { string with pending := some c.point }))
      | none => .error ⟨.unclosedString, c.point⟩

/-- Reads a block string up to the end of a line, its next hole or its end. -/
def blockString (lx : Lexer) (string : BlockString) :
    List Token × Except SyntaxError (List Token × Lexer) :=
  if lx.cursor.atLineStart && lx.cursor.canRead then
    match blockIndentation string lx.cursor with
    | (tokens, .error e) => (tokens, .error e)
    | (tokens, .ok (string, c)) => (tokens, blockContent lx string c)
  else ([], blockContent lx string lx.cursor)

/-! ### Steps -/

/-- Whether a line has tokens that its end has to close, after some more tokens. -/
def lineOpenAfter (lineOpen : Bool) (tokens : List Token) : Bool :=
  tokens.foldl (fun isOpen t =>
    match t.kind with
    | .lineEnd => false
    | .indent => isOpen
    | .dedent => isOpen
    | _ => true) lineOpen

/-- The step that gives some tokens and goes on in another state or with an error. -/
def stepTo (lx : Lexer) (before : List Token) :
    Except SyntaxError (List Token × Lexer) → LexerStep
  | .error e => .fail before e
  | .ok (tokens, next) =>
    .more (before ++ tokens)
      { next with lineOpen := lineOpenAfter lx.lineOpen (before ++ tokens) }

/-- One step of the lexer in code or in a hole, past the indentation. -/
def codeStep (lx : Lexer) (before : List Token) : LexerStep :=
  if lx.cursor.canRead then stepTo lx before lx.code else lx.finish before

/-- One step of the lexer. -/
def step (lx : Lexer) : LexerStep :=
  match lx.mode with
  | .lineString => stepTo lx [] lx.lineString
  | .blockString string =>
    let (before, rest) := lx.blockString string
    stepTo lx before rest
  | .hole => codeStep lx []
  | .code =>
    if lx.cursor.atLineStart && lx.cursor.canRead then
      match lx.lineIndentation with
      | (before, .ok next) => codeStep next before
      | (before, .error e) => .fail before e
    else codeStep lx []

/-! ### Progress -/

private theorem length_content_le {quotes column last : Nat} {cs text left : List Char}
    (h : content quotes column cs = .ok (text, last, left)) : left.length ≤ cs.length := by
  fun_induction content quotes column cs generalizing text last left with
  | case1 => simp_all
  | case2 => simp at h
  | case3 => simp at h
  | case4 column ch rest plain _ text' last' left' hrec ih =>
    obtain ⟨-, -, rfl⟩ := by simpa using h
    have := ih hrec
    simp
    omega
  | case5 => simp at h
  | case6 => simp_all
  | case7 column ch rest _ _ _ text' last' left' hrec ih =>
    obtain ⟨-, -, rfl⟩ := by simpa using h
    have := ih hrec
    simp
    omega
  | case8 => simp at h

private theorem remaining_readContent_le {quotes : Nat} {c next : Cursor} {text : List Char}
    (h : readContent quotes c = .ok (text, next)) : next.remaining ≤ c.remaining := by
  unfold readContent at h
  split at h
  · rename_i hcontent
    obtain ⟨-, rfl⟩ := by simpa using h
    exact length_content_le hcontent
  · simp at h

private theorem remaining_takeWhile_lt {p : Char → Bool} {c : Cursor} {ch : Char} {rest : List Char}
    (hrest : c.rest = ch :: rest) (hp : p ch = true) :
    (c.takeWhile p).2.remaining < c.remaining := by
  have := Cursor.length_dropWhile_le p rest
  simp [Cursor.takeWhile, Cursor.forward, Cursor.remaining, hrest, hp]
  omega

private theorem remaining_number_lt {c last : Cursor} {token : Token} {ch : Char} {rest : List Char}
    (hrest : c.rest = ch :: rest) (hch : isAsciiDigit ch = true)
    (h : number c = .ok (token, last)) : last.remaining < c.remaining := by
  have hwhole := remaining_takeWhile_lt hrest hch
  simp only [number] at h
  split at h
  · rename_i more hmore
    have hpoint := Cursor.remaining_takeWhile_le isAsciiDigit
      ((c.takeWhile isAsciiDigit).2.forward 1 more)
    split at h
    · simp at h
    · obtain ⟨-, rfl⟩ := by simpa using h
      refine Nat.lt_of_le_of_lt hpoint (Nat.lt_trans ?_ hwhole)
      simp [Cursor.remaining, Cursor.forward, hmore]
  · obtain ⟨-, rfl⟩ := by simpa using h
    exact hwhole

private theorem remaining_sign_lt {c : Cursor} {s : Sign} {ch : Char} {rest : List Char}
    (hrest : c.rest = ch :: rest) : (sign c s).2.remaining < c.remaining := by
  have : 0 < s.spelling.toList.length := by cases s <;> decide
  simp only [sign, Cursor.remaining, Cursor.forward, hrest, List.length_drop, List.length_cons]
  omega

private theorem remaining_openString_lt {lx next : Lexer} {c : Cursor} {tokens : List Token}
    {rest : List Char} (hrest : c.rest = '"' :: rest)
    (h : openString lx c = .ok (tokens, next)) : next.remaining < c.remaining := by
  have hquotes : (quoteRun c).2.remaining < c.remaining :=
    remaining_takeWhile_lt hrest (by decide)
  simp only [openString] at h
  split at h
  · split at h
    · simp at h
    · obtain ⟨-, rfl⟩ := by simpa using h
      exact Nat.lt_of_le_of_lt (remaining_skipLineEnd_le _) hquotes
  · split at h <;> obtain ⟨-, rfl⟩ := by simpa using h
    · exact hquotes
    · exact hquotes

private theorem remaining_skipBlanks_le (c : Cursor) : c.skipBlanks.remaining ≤ c.remaining :=
  Cursor.remaining_takeWhile_le _ _

private theorem remaining_code_lt {lx next : Lexer} {tokens : List Token}
    (hread : lx.cursor.canRead = true) (h : lx.code = .ok (tokens, next)) :
    next.remaining < lx.remaining := by
  have hblank := remaining_skipBlanks_le lx.cursor
  have hpos : 0 < lx.cursor.remaining := by
    simp only [Cursor.canRead, Bool.not_eq_true', List.isEmpty_eq_false_iff] at hread
    exact List.length_pos_iff.mpr hread
  simp only [code] at h
  split at h
  · rename_i hrest
    obtain ⟨-, rfl⟩ := by simpa using h
    exact Nat.lt_of_le_of_lt (by simp [Cursor.remaining, hrest]) hpos
  · rename_i ch rest hrest
    refine Nat.lt_of_lt_of_le ?_ hblank
    split at h
    · split at h
      · simp at h
      · split at h
        · rename_i hr
          obtain ⟨-, rfl⟩ := by simpa using h
          exact Cursor.remaining_lt_of_read? hr
        · rename_i hr
          simp only [Cursor.read?, hrest] at hr
          split at hr <;> (try split at hr) <;> simp at hr
    · split at h
      · rename_i hdigit
        split at h
        · rename_i hnumber
          obtain ⟨-, rfl⟩ := by simpa using h
          exact remaining_number_lt hrest hdigit hnumber
        · simp at h
      · split at h
        · rename_i hname
          obtain ⟨-, rfl⟩ := by simpa using h
          refine remaining_takeWhile_lt hrest ?_
          simp only [Cursor.startsName, Bool.or_eq_true] at hname
          simp only [Cursor.continuesName, Bool.or_eq_true]
          exact hname.elim (fun h => Or.inl (Or.inl h)) Or.inr
        · split at h
          · rename_i hquote
            subst hquote
            exact remaining_openString_lt hrest h
          · split at h
            · obtain ⟨-, rfl⟩ := by simpa using h
              simp [Cursor.remaining, Cursor.forward, hrest]
            · split at h
              · obtain ⟨-, rfl⟩ := by simpa using h
                exact remaining_sign_lt hrest
              · simp at h

private theorem remaining_lineString_lt {lx next : Lexer} {tokens : List Token}
    (h : lx.lineString = .ok (tokens, next)) : next.remaining < lx.remaining := by
  simp only [lineString] at h
  split at h
  · simp at h
  · rename_i text c hcontent
    refine Nat.lt_of_lt_of_le ?_ (remaining_readContent_le hcontent)
    split at h
    · rename_i hrest
      obtain ⟨-, rfl⟩ := by simpa using h
      simp [Cursor.remaining, Cursor.forward, hrest]
    · rename_i hrest
      obtain ⟨-, rfl⟩ := by simpa using h
      simp [Cursor.remaining, Cursor.forward, hrest]
    · simp at h

/-- Reading the content of a block string makes the text that is left shorter. -/
theorem remaining_blockContent_lt {lx next : Lexer} {string : BlockString} {start : Cursor}
    {tokens : List Token} (h : lx.blockContent string start = .ok (tokens, next)) :
    next.remaining < start.remaining := by
  have hquotes := string.quotes_pos
  simp only [blockContent] at h
  split at h
  · simp at h
  · rename_i text c hcontent
    refine Nat.lt_of_lt_of_le ?_ (remaining_readContent_le hcontent)
    split at h
    · simp at h
    · rename_i hrest
      obtain ⟨-, rfl⟩ := by simpa using h
      simp [Cursor.remaining, Cursor.forward, hrest]
    · rename_i hrest
      obtain ⟨-, rfl⟩ := by simpa using h
      simp only [remaining_pop, remaining_moveTo, Cursor.remaining, Cursor.forward, hrest,
        List.length_drop, List.length_cons]
      omega
    · split at h
      · rename_i hread
        obtain ⟨-, rfl⟩ := by simpa using h
        exact Cursor.remaining_lt_of_read? hread
      · simp at h

private theorem remaining_blockIndentation_le {string next : BlockString} {start c : Cursor}
    {tokens : List Token} (h : blockIndentation string start = (tokens, .ok (next, c))) :
    c.remaining ≤ start.remaining := by
  have hindent := Cursor.remaining_readIndent_le (some string.baseline) start
  unfold blockIndentation at h
  split at h
  · simp at h
  · rename_i hread
    rw [hread] at hindent
    dsimp only at h
    split at h
    · simp at h
    · obtain ⟨-, -, rfl⟩ := by simpa using h
      exact hindent

/-- So does reading in a block string, whose content may follow a margin. -/
theorem remaining_blockString_lt {lx next : Lexer} {string : BlockString}
    {before tokens : List Token} (h : lx.blockString string = (before, .ok (tokens, next))) :
    next.remaining < lx.remaining := by
  unfold blockString at h
  split at h
  · split at h
    · simp at h
    · rename_i hindent
      obtain ⟨-, h⟩ := by simpa using h
      exact Nat.lt_of_lt_of_le (remaining_blockContent_lt h) (remaining_blockIndentation_le hindent)
  · obtain ⟨-, h⟩ := by simpa using h
    exact remaining_blockContent_lt h

private theorem remaining_lineIndentation_le {lx next : Lexer} {before : List Token}
    (h : lx.lineIndentation = (before, .ok next)) : next.remaining ≤ lx.remaining := by
  have hindent := Cursor.remaining_readIndent_le none lx.cursor
  unfold lineIndentation at h
  split at h
  · simp at h
  · rename_i hread
    rw [hread] at hindent
    dsimp only at h
    split at h
    · obtain ⟨-, rfl⟩ := by simpa using h
      exact hindent
    · split at h
      · obtain ⟨-, rfl⟩ := by simpa using h
        exact hindent
      · split at h
        · obtain ⟨-, rfl⟩ := by simpa using h
          exact hindent
        · simp at h

/-- What a step goes on with is what its part of the text left. -/
theorem eq_ok_of_stepTo {lx next : Lexer} {before tokens : List Token}
    {result : Except SyntaxError (List Token × Lexer)}
    (h : stepTo lx before result = .more tokens next) :
    ∃ own last, result = .ok (own, last) ∧ next.remaining = last.remaining := by
  unfold stepTo at h
  split at h
  · simp at h
  · obtain ⟨-, rfl⟩ := by simpa using h
    exact ⟨_, _, rfl, rfl⟩

/-- So does reading code. -/
theorem remaining_codeStep_lt {lx next : Lexer} {before tokens : List Token}
    (h : codeStep lx before = .more tokens next) : next.remaining < lx.remaining := by
  unfold codeStep at h
  split at h
  · rename_i hread
    obtain ⟨_, _, hcode, hnext⟩ := eq_ok_of_stepTo h
    rw [hnext]
    exact remaining_code_lt hread hcode
  · unfold finish at h
    split at h <;> simp at h

/-- A step that does not end the lexer leaves less text. -/
theorem remaining_lt_of_step {lx next : Lexer} {tokens : List Token}
    (h : lx.step = .more tokens next) : next.remaining < lx.remaining := by
  unfold step at h
  split at h
  · obtain ⟨_, _, hstring, hnext⟩ := eq_ok_of_stepTo h
    rw [hnext]
    exact remaining_lineString_lt hstring
  · obtain ⟨_, _, hstring, hnext⟩ := eq_ok_of_stepTo h
    rw [hnext]
    exact remaining_blockString_lt (Prod.ext rfl hstring)
  · exact remaining_codeStep_lt h
  · split at h
    · split at h
      · rename_i hindent
        exact Nat.lt_of_lt_of_le (remaining_codeStep_lt h) (remaining_lineIndentation_le hindent)
      · simp at h
    · exact remaining_codeStep_lt h

/-! ### Listings of tokens -/

/-- The tokens from a state of the lexer on. -/
def tokens (lx : Lexer) : Listing Token SyntaxError :=
  match h : lx.step with
  | .done tokens => ⟨tokens, none⟩
  | .fail tokens e => ⟨tokens, some e⟩
  | .more tokens next =>
    have := remaining_lt_of_step h
    next.tokens.prepend tokens
termination_by lx.remaining

end Lexer

/-- The tokens of a text, up to the first syntax error. -/
def tokensOf (text : String) : Listing Token SyntaxError := (Lexer.ofText text).tokens

/-- The tokens of a text without syntax errors of its parts. -/
def tokenize (text : String) : Except SyntaxError (List Token) := (tokensOf text).toExcept

end DialogScript
