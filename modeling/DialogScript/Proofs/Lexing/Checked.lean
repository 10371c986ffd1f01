import Mathlib.Data.List.Basic
import DialogScript.Proofs.Lexing.Layout
import DialogScript.Proofs.Parsing.Feed

/-!
# The lexer with checked operations

The operations below the lexer have places where they fail: no character can be read at the end of
the source, indentation can only be read at the start of a line, a span has to have a column, and a
stack has to have a top. The lexer is written here once more with every one of these operations
checked. In the states that it comes to from a text no check fails, whatever the text is: each step
is the step of the lexer, and an error in it is a syntax error (`Checked.step_eq_of_reached`).
-/

namespace DialogScript

open Text

namespace Cursor

variable {c next : Cursor} {ch : Char} {rest : List Char}

private theorem read?_of_read (h : c.read = .ok (ch, next)) : c.read? = some (ch, next) := by
  unfold read at h
  split at h
  · rename_i hread
    rw [hread, Except.ok.inj h]
  · cases h

private theorem remaining_lt_of_read (h : c.read = .ok (ch, next)) : next.remaining < c.remaining :=
  remaining_lt_of_read? (read?_of_read h)

/-- A character that neither ends a line nor starts a comment is read as it is. -/
theorem read_of_rest (h : c.rest = ch :: rest) (hbreak : ch ≠ '\n') (hcomment : ch ≠ '#') :
    c.read = .ok (ch, c.forward 1 rest) := by
  simp [read, read?, h, hbreak, hcomment]

private theorem peek_of_rest (h : c.rest = ch :: rest) : c.peek = some ch := by
  rw [peek, h, List.head?_cons]

private theorem canRead_of_rest (h : c.rest = ch :: rest) : c.canRead = true := by
  rw [canRead, h]
  rfl

private theorem read_of_canRead (h : c.canRead = true) :
    ∃ result, c.read? = some result ∧ c.read = .ok result := by
  unfold read
  cases hread : c.read? with
  | some result => exact ⟨result, rfl, rfl⟩
  | none => simp [canRead, rest_eq_nil_of_read? hread] at h

private theorem forward_forward (c : Cursor) (n m : Nat) (cs ds : List Char) :
    (c.forward n cs).forward m ds = c.forward (n + m) ds := by
  simp [forward, Nat.add_assoc]

private theorem forward_zero (h : c.rest = rest) : c.forward 0 rest = c := by
  subst h
  rfl

/-- Reads the characters of a class, one after the other. -/
def readWhile (p : Char → Bool) (c : Cursor) : Except Fault (List Char × Cursor) :=
  if c.peek.any p then
    match h : c.read with
    | .error e => .error e
    | .ok (ch, next) =>
      have := remaining_lt_of_read h
      (next.readWhile p).map fun (text, last) => (ch :: text, last)
  else .ok ([], c)
termination_by c.remaining

/-- Reads a number of characters. -/
def readMany : Nat → Cursor → Except Fault (List Char × Cursor)
  | 0, c => .ok ([], c)
  | n + 1, c => do
    let (ch, next) ← c.read
    let (text, last) ← readMany n next
    return (ch :: text, last)

/-- Without a character of the class there is nothing to take. -/
theorem takeWhile_of_peek {p : Char → Bool} (h : c.peek.any p = false) :
    c.takeWhile p = ([], c) := by
  cases hrest : c.rest with
  | nil => rw [takeWhile, hrest, List.takeWhile_nil, List.dropWhile_nil, List.length_nil,
      forward_zero hrest]
  | cons ch rest =>
    rw [peek_of_rest hrest, Option.any_some] at h
    rw [takeWhile, hrest, List.takeWhile_cons_of_neg (by simp [h]),
      List.dropWhile_cons_of_neg (by simp [h]), List.length_nil, forward_zero hrest]

private theorem takeWhile_of_rest {p : Char → Bool} (hrest : c.rest = ch :: rest)
    (h : p ch = true) :
    c.takeWhile p =
      (ch :: ((c.forward 1 rest).takeWhile p).1, ((c.forward 1 rest).takeWhile p).2) := by
  rw [takeWhile, takeWhile, hrest, forward_forward, List.takeWhile_cons_of_pos h,
    List.dropWhile_cons_of_pos h, List.length_cons, Nat.add_comm]
  rfl

/-- The characters of a class without the line break and `#` are there to be read. -/
theorem readWhile_eq {p : Char → Bool} (hbreak : p '\n' = false) (hcomment : p '#' = false)
    (c : Cursor) : c.readWhile p = .ok (c.takeWhile p) := by
  by_cases hany : c.peek.any p = true
  · obtain ⟨ch, rest, hrest, hp⟩ : ∃ ch rest, c.rest = ch :: rest ∧ p ch = true := by
      cases hrest : c.rest with
      | nil => simp [peek, hrest] at hany
      | cons ch rest => exact ⟨ch, rest, rfl, by simpa [peek, hrest] using hany⟩
    have hread := read_of_rest hrest (ne_of_apply_ne p (by simp [hp, hbreak]))
      (ne_of_apply_ne p (by simp [hp, hcomment]))
    have hless := remaining_lt_of_read hread
    rw [readWhile, if_pos hany, takeWhile_of_rest hrest hp]
    split
    · rename_i hfailed
      rw [hread] at hfailed
      cases hfailed
    · rename_i hread'
      obtain ⟨rfl, rfl⟩ := Prod.mk.inj (Except.ok.inj (hread.symm.trans hread'))
      rw [readWhile_eq hbreak hcomment (c.forward 1 rest)]
      rfl
  · rw [readWhile, if_neg hany, takeWhile_of_peek (Bool.eq_false_iff.mpr hany)]
termination_by c.remaining

/-- Characters of a line before its comment are there to be read. -/
theorem readMany_eq {cs : List Char} (h : c.rest = cs ++ rest) (hbreak : '\n' ∉ cs)
    (hcomment : '#' ∉ cs) : c.readMany cs.length = .ok (cs, c.forward cs.length rest) := by
  induction cs generalizing c with
  | nil => exact (forward_zero h).symm ▸ rfl
  | cons ch cs ih =>
    simp only [List.mem_cons, not_or] at hbreak hcomment
    have hread := read_of_rest h (Ne.symm hbreak.1) (Ne.symm hcomment.1)
    have hmany := ih (c := c.forward 1 (cs ++ rest)) rfl hbreak.2 hcomment.2
    rw [forward_forward, Nat.add_comm] at hmany
    exact bind_eq_ok.mpr ⟨_, hread, bind_eq_ok.mpr ⟨_, hmany, rfl⟩⟩

private theorem remaining_lt_of_expect {wanted : Option Char} (h : c.expect wanted = .ok next) :
    next.remaining < c.remaining := by
  unfold expect at h
  split at h
  · cases hread : c.read with
    | error e => simp [hread, Except.map] at h
    | ok result =>
      obtain rfl : result.2 = next := by simpa [hread, Except.map] using h
      exact remaining_lt_of_read hread
  · cases h

private theorem expect_of_rest (h : c.rest = ch :: rest) (hbreak : ch ≠ '\n')
    (hcomment : ch ≠ '#') :
    c.expect (some ch) = .ok (c.forward 1 rest) := by
  rw [expect, if_pos (peek_of_rest h), read_of_rest h hbreak hcomment]
  rfl

/-- The characters between two columns of a line are a span. -/
theorem spanFrom_eq {initial : Int} (final : Option Int) (h : initial < final.getD c.column) :
    c.spanFrom initial final = .ok ⟨c.line, initial, final.getD c.column, h⟩ := by
  simp [spanFrom, Span.make, h]

end Cursor

namespace Lexer

/-- Why a lexer with checked operations stops. -/
inductive Fault where
  | cursor (fault : Cursor.Fault)
  | noMode
  | noIndentation
  deriving DecidableEq

namespace Checked

/-- The fault of a syntax error. -/
def malformed (e : SyntaxError) : Fault := .cursor (.malformed e)

/-- The mode on top of the stack. -/
def mode (lx : Lexer) : Except Fault Mode :=
  match lx.modes with
  | [] => .error .noMode
  | m :: _ => .ok m

/-- The width on top of the stack. -/
def indentation (lx : Lexer) : Except Fault Nat :=
  match lx.indents with
  | [] => .error .noIndentation
  | width :: _ => .ok width

/-- Takes the mode off the top of the stack. -/
def pop (lx : Lexer) : Except Fault Lexer :=
  match lx.modes with
  | [] => .error .noMode
  | _ :: _ => .ok lx.pop

/-! ### Code -/

/-- Reads a number. -/
def number (c : Cursor) : Except Cursor.Fault (Token × Cursor) := do
  let (whole, last) ← c.readWhile isAsciiDigit
  if last.peek = some '.' then
    let (point, next) ← last.read
    let (fraction, last) ← next.readWhile isAsciiDigit
    if fraction.isEmpty then .error (.malformed ⟨.missingFraction, last.point⟩)
    else return (tokenBetween .float (whole ++ point :: fraction) c last, last)
  else return (tokenBetween .integer whole c last, last)

/-- Reads a name or a reserved word. -/
def word (c : Cursor) : Except Cursor.Fault (Token × Cursor) := do
  let (first, next) ← c.read
  let (more, last) ← next.readWhile Cursor.continuesName
  let kind :=
    match Keyword.ofSpelling? (String.ofList (first :: more)) with
    | some keyword => .keyword keyword
    | none => .name
  return (tokenBetween kind (first :: more) c last, last)

/-- The sign with a spelling. -/
def signSpelled? (cs : List Char) : Option Sign := Sign.all.find? fun s => s.spelling.toList == cs

/-- Reads a sign, of two characters if there is one. -/
def sign (c : Cursor) : Except Cursor.Fault (Token × Cursor) := do
  let (first, next) ← c.read
  match next.peek.bind fun second => signSpelled? [first, second] with
  | some s =>
    let (second, last) ← next.read
    return (tokenBetween (.sign s) [first, second] c last, last)
  | none =>
    match signSpelled? [first] with
    | some s => return (tokenBetween (.sign s) [first] c next, next)
    | none => .error (.malformed ⟨.unexpectedSymbol first, c.point⟩)

private theorem quotes_pos_of_lt {quotes : List Char} (h : 2 < quotes.length) :
    0 < quotes.length := by
  omega

/-- Reads the quotes at the start of a string. -/
def openString (lx : Lexer) (c : Cursor) : Except Fault (List Token × Lexer) := do
  let (quotes, last) ← (c.readWhile (· == '"')).mapError .cursor
  if h : 2 < quotes.length then
    if lx.modes.contains .hole then
      let span ← (last.spanFrom c.column none).mapError .cursor
      .error (malformed ⟨.blockStringInHole, span⟩)
    else
      let baseline ← indentation lx
      let start := [tokenBetween .stringStart quotes c last]
      let string : BlockString := ⟨quotes.length, baseline, none, quotes_pos_of_lt h⟩
      if last.canRead && last.atLineEnd then
        let (_, next) ← last.read.mapError .cursor
        return (start, (lx.moveTo next).push (.blockString string))
      else return (start, (lx.moveTo last).push (.blockString string))
  else if quotes.length = 2 then
    return ([tokenBetween .text [] c last], lx.moveTo last)
  else return ([tokenBetween .stringStart quotes c last], (lx.moveTo last).push .lineString)

/-- Reads one token of code, or the end of a line. -/
def code (lx : Lexer) : Except Fault (List Token × Lexer) := do
  let mode ← mode lx
  let (_, c) ← (lx.cursor.readWhile Cursor.isIndentChar).mapError .cursor
  match c.peek with
  | none => return ([], lx.moveTo c)
  | some ch =>
    if c.atLineEnd then
      if mode = .hole then .error (malformed ⟨.unclosedHole, c.point⟩)
      else
        let (_, next) ← c.read.mapError .cursor
        return ([.atSpan .lineEnd "\n" c.point], lx.moveTo next)
    else if isAsciiDigit ch then
      let (token, last) ← (number c).mapError .cursor
      return ([token], lx.moveTo last)
    else if Cursor.startsName ch then
      let (token, last) ← (word c).mapError .cursor
      return ([token], lx.moveTo last)
    else if ch = '"' then openString lx c
    else if ch = '}' ∧ mode = .hole then
      let (_, next) ← c.read.mapError .cursor
      let after ← pop (lx.moveTo next)
      return ([.atSpan .holeEnd "\x7d" c.point], after)
    else
      let (token, last) ← (sign c).mapError .cursor
      return ([token], lx.moveTo last)

/-- Reads the indentation at the start of a line of code. -/
def lineIndentation (lx : Lexer) : List Token × Except Fault Lexer :=
  match lx.cursor.indent none with
  | (.error e, _) => ([], .error (.cursor e))
  | (.ok level, c) =>
    if !c.canRead then ([], .ok (lx.moveTo c))
    else
      match indentation lx with
      | .error e => ([], .error e)
      | .ok top =>
        if top < level then
          ([⟨.indent, "", c.line, top + 1, level + 1⟩],
            .ok { lx.moveTo c with indents := level :: lx.indents })
        else
          let (closed, left) := closeBlocks level lx.indents
          let tokens := closed.map fun _ => Token.atSpan .dedent "" (Span.point c.line (level + 1))
          match indentation { lx with indents := left } with
          | .error e => (tokens, .error e)
          | .ok width =>
            if width = level then (tokens, .ok { lx.moveTo c with indents := left })
            else (tokens, .error (malformed ⟨.inconsistentIndentation, c.point⟩))

/-! ### Strings -/

/-- Reads an escape and gives the character that it stands for. -/
def escape (c : Cursor) : Except Cursor.Fault (Char × Cursor) := do
  let next ← c.expect (some '\\')
  match next.peek.bind unescape? with
  | some plain =>
    let (_, last) ← next.read
    return (plain, last)
  | none =>
    let span ← next.spanFrom c.column (some (next.column + 1))
    .error (.malformed ⟨.invalidEscape next.peek, span⟩)

/-- Reads one character of the text of a string. -/
def contentChar (c : Cursor) : Except Cursor.Fault (Char × Cursor) :=
  if c.peek = some '\\' then escape c else c.read

private theorem remaining_lt_of_contentChar {c next : Cursor} {ch : Char}
    (h : contentChar c = .ok (ch, next)) : next.remaining < c.remaining := by
  unfold contentChar at h
  split at h
  · obtain ⟨d, hexpect, h⟩ := bind_eq_ok.mp h
    have hd := Cursor.remaining_lt_of_expect hexpect
    split at h
    · obtain ⟨⟨_, last⟩, hread, h⟩ := bind_eq_ok.mp h
      obtain ⟨-, rfl⟩ := Prod.mk.inj (pure_eq_ok.mp h)
      exact Nat.lt_trans (Cursor.remaining_lt_of_read hread) hd
    · obtain ⟨_, -, h⟩ := bind_eq_ok.mp h
      cases h
  · exact Cursor.remaining_lt_of_read h

/-- Whether the text of a string ends at the end of the line, a hole or the closing quotes. -/
def endsContent (quotes : Nat) (c : Cursor) : Bool :=
  c.atLineEnd || c.peek == some '{' || startsWithQuotes quotes c.rest

/-- Reads the text of a string. -/
def content (quotes : Nat) (c : Cursor) : Except Cursor.Fault (List Char × Cursor) :=
  if endsContent quotes c then .ok ([], c)
  else
    match h : contentChar c with
    | .error e => .error e
    | .ok (ch, next) =>
      have := remaining_lt_of_contentChar h
      (content quotes next).map fun (text, last) => (ch :: text, last)
termination_by c.remaining

/-- Reads a string on one line up to its end or its next hole. -/
def lineString (lx : Lexer) : Except Fault (List Token × Lexer) := do
  let (text, c) ← (content 1 lx.cursor).mapError .cursor
  match c.peek with
  | some '{' =>
    let next ← (c.expect (some '{')).mapError .cursor
    return (fragment text lx.cursor c ++ [.atSpan .holeStart "\x7b" c.point],
      (lx.moveTo next).push .hole)
  | some '"' =>
    let (_, next) ← c.read.mapError .cursor
    let after ← pop (lx.moveTo next)
    return (fragment text lx.cursor c ++ [.atSpan .stringEnd "\"" c.point], after)
  | _ => .error (malformed ⟨.unclosedString, c.point⟩)

/-- Reads the indentation of a line of a block string. -/
def blockIndentation (string : BlockString) (start : Cursor) :
    List Token × Except Fault (BlockString × Cursor) :=
  match start.indent (some string.baseline) with
  | (.error e, _) => ([], .error (.cursor e))
  | (.ok level, c) =>
    let breaks := string.pending.toList ++ lineStarts start.line (c.line - start.line)
    let tokens := breaks.dropLast.map (.atSpan .text "\n")
    if c.canRead && level != string.baseline then
      (tokens, .error (malformed ⟨.inconsistentIndentation, c.point⟩))
    else (tokens, .ok ({ string with pending := breaks.getLast? }, c))

/-- Reads a block string from a place within a line up to the end of the line, its next hole or
its end. -/
def blockContent (lx : Lexer) (string : BlockString) (start : Cursor) :
    Except Fault (List Token × Lexer) := do
  let (text, c) ← (content string.quotes start).mapError .cursor
  match c.peek with
  | none => .error (malformed ⟨.unclosedString, c.point⟩)
  | some '{' =>
    let next ← (c.expect (some '{')).mapError .cursor
    return (lineBreak string.pending ++ fragment text start c
        ++ [.atSpan .holeStart "\x7b" c.point],
      ((lx.moveTo next).replaceTop (.blockString { string with pending := none })).push .hole)
  | some '"' =>
    let (quotes, last) ← (c.readMany string.quotes).mapError .cursor
    let after ← pop (lx.moveTo last)
    let before := if text.isEmpty then [] else lineBreak string.pending ++ fragment text start c
    return (before ++ [tokenBetween .stringEnd quotes c last], after)
  | some _ =>
    let (_, next) ← c.read.mapError .cursor
    return (lineBreak string.pending ++ fragment text start c,
      (lx.moveTo next).replaceTop (.blockString { string with pending := some c.point }))

/-- Reads a block string up to the end of a line, its next hole or its end. -/
def blockString (lx : Lexer) (string : BlockString) :
    List Token × Except Fault (List Token × Lexer) :=
  if lx.cursor.atLineStart && lx.cursor.canRead then
    match blockIndentation string lx.cursor with
    | (tokens, .error e) => (tokens, .error e)
    | (tokens, .ok (string, c)) => (tokens, blockContent lx string c)
  else ([], blockContent lx string lx.cursor)

/-! ### Steps -/

/-- What a step comes to: its tokens, and the state after it unless it is the last one. -/
abbrev Step := List Token × Except Fault (Option Lexer)

/-- The step that gives some tokens and goes on in another state or with a fault. -/
def stepTo (lx : Lexer) (before : List Token) : Except Fault (List Token × Lexer) → Step
  | .error e => (before, .error e)
  | .ok (tokens, next) =>
    (before ++ tokens,
      .ok (some { next with lineOpen := lineOpenAfter lx.lineOpen (before ++ tokens) }))

/-- The last step, at the end of the source. -/
def finish (lx : Lexer) (before : List Token) : Step :=
  match mode lx with
  | .error e => (before, .error e)
  | .ok .code =>
    let here := lx.cursor.point
    (before ++ (if lx.lineOpen then [.atSpan .lineEnd "\n" here] else [])
      ++ lx.indents.dropLast.map (fun _ => .atSpan .dedent "" here)
      ++ [.atSpan .sourceEnd "" here], .ok none)
  | .ok _ => (before, .error (malformed ⟨.unclosedHole, lx.cursor.point⟩))

/-- One step in code or in a hole, past the indentation. -/
def codeStep (lx : Lexer) (before : List Token) : Step :=
  if lx.cursor.canRead then stepTo lx before (code lx) else finish lx before

/-- One step of the lexer. -/
def step (lx : Lexer) : Step :=
  match mode lx with
  | .error e => ([], .error e)
  | .ok .lineString => stepTo lx [] (lineString lx)
  | .ok (.blockString string) =>
    let (before, rest) := blockString lx string
    stepTo lx before rest
  | .ok .hole => codeStep lx []
  | .ok .code =>
    if lx.cursor.atLineStart && lx.cursor.canRead then
      match lineIndentation lx with
      | (before, .ok next) => codeStep next before
      | (before, .error e) => (before, .error e)
    else codeStep lx []

/-- The states that the lexer comes to from a text. -/
inductive Reached (text : String) : Lexer → Prop
  | start : Reached text (ofText text)
  | step {lx next : Lexer} {tokens : List Token} (h : Reached text lx)
      (hstep : step lx = (tokens, .ok (some next))) : Reached text next

/-! ### No check fails -/

variable {lx next : Lexer} {c : Cursor} {ch : Char} {rest : List Char}

/-- The lexer keeps both stacks filled, and the lowest block has no indentation. -/
structure Steady (lx : Lexer) : Prop where
  modes : lx.modes ≠ []
  indents : lx.indents.getLast? = some 0

theorem mode_eq (h : lx.modes ≠ []) : mode lx = .ok lx.mode := by
  unfold mode Lexer.mode
  split
  · contradiction
  · rename_i hmodes
    rw [hmodes, List.headD_cons]

private theorem indentation_eq (h : lx.indents.getLast? = some 0) :
    indentation lx = .ok lx.indentation := by
  unfold indentation Lexer.indentation
  split
  · rename_i hindents
    simp [hindents] at h
  · rename_i hindents
    rw [hindents, List.headD_cons]

private theorem pop_eq (h : lx.modes ≠ []) (c : Cursor) :
    pop (lx.moveTo c) = .ok (lx.moveTo c).pop := by
  unfold pop
  split
  · contradiction
  · rfl

private theorem number_eq (c : Cursor) : number c = (Lexer.number c).mapError .malformed := by
  unfold number Lexer.number
  rw [Cursor.readWhile_eq (by decide) (by decide)]
  simp only [bind, Except.bind, pure, Except.pure]
  split
  · rename_i hpeek
    obtain ⟨rest, hrest⟩ := List.head?_eq_some_iff.mp hpeek
    rw [hrest, Cursor.read_of_rest hrest (by decide) (by decide)]
    simp only [Cursor.readWhile_eq (p := isAsciiDigit) (by decide) (by decide)]
    split <;> rfl
  · rename_i hpeek
    split
    · rename_i hrest
      exact absurd (Cursor.peek_of_rest hrest) hpeek
    · rfl

private theorem word_eq (hrest : c.rest = ch :: rest) (hch : Cursor.startsName ch = true) :
    word c = .ok (Lexer.word c) := by
  have hfirst : Cursor.continuesName ch = true := by
    simp only [Cursor.startsName, Cursor.continuesName, Bool.or_eq_true] at hch ⊢
    exact hch.elim (fun h => .inl (.inl h)) .inr
  have hread := Cursor.read_of_rest hrest
    (ne_of_apply_ne Cursor.startsName (by rw [hch]; decide))
    (ne_of_apply_ne Cursor.startsName (by rw [hch]; decide))
  have hmore := Cursor.readWhile_eq (p := Cursor.continuesName) (by decide) (by decide)
    (c.forward 1 rest)
  refine bind_eq_ok.mpr ⟨_, hread, bind_eq_ok.mpr ⟨_, hmore, ?_⟩⟩
  rw [Lexer.word, Cursor.takeWhile_of_rest hrest hfirst]
  rfl

private theorem spelling_of_signSpelled? {cs : List Char} {s : Sign}
    (h : signSpelled? cs = some s) :
    s.spelling.toList = cs := by
  simpa using List.find?_some h

private theorem sign_of_spelling {cs : List Char} {s : Sign} (hs : s.spelling.toList = cs)
    (hrest : c.rest = cs ++ rest) :
    Lexer.sign c s =
      (tokenBetween (.sign s) cs c (c.forward cs.length rest), c.forward cs.length rest) := by
  rw [Lexer.sign, hs, hrest, List.drop_left]

/-- No sign has a line break or `#` in it. -/
theorem not_mem_spelling (s : Sign) : '\n' ∉ s.spelling.toList ∧ '#' ∉ s.spelling.toList := by
  cases s <;> decide

/-- The sign at the start of a text has two characters if two characters make one. -/
theorem sign?_cons (ch : Char) (rest : List Char) :
    sign? (ch :: rest) =
      (rest.head?.bind fun second => signSpelled? [ch, second]).or (signSpelled? [ch]) := by
  cases rest with
  | nil =>
    change (match signSpelled? [ch] with
      | some s => some s
      | none => signSpelled? [ch]) = _
    cases hs : signSpelled? [ch] <;> simp
  | cons second more =>
    change (match signSpelled? [ch, second] with
      | some s => some s
      | none => signSpelled? [ch]) = _
    cases hs : signSpelled? [ch, second] <;> simp [hs]

private theorem sign_eq (hrest : c.rest = ch :: rest) (hend : c.atLineEnd = false) :
    sign c = match sign? c.rest with
      | some s => .ok (Lexer.sign c s)
      | none => .error (.malformed ⟨.unexpectedSymbol ch, c.point⟩) := by
  have hch : ch ≠ '\n' ∧ ch ≠ '#' := by simpa [Cursor.atLineEnd, hrest] using hend
  have hread := Cursor.read_of_rest hrest hch.1 hch.2
  have hpeek : (c.forward 1 rest).peek = rest.head? := rfl
  rw [hrest, sign?_cons]
  unfold sign
  simp only [hread, hpeek, bind, Except.bind, pure, Except.pure]
  cases hdouble : rest.head?.bind fun second => signSpelled? [ch, second] with
  | some s =>
    obtain ⟨second, hsecond, hs⟩ := Option.bind_eq_some_iff.mp hdouble
    obtain ⟨more, rfl⟩ := List.head?_eq_some_iff.mp hsecond
    have hspelling := spelling_of_signSpelled? hs
    have hplain := not_mem_spelling s
    simp only [hspelling, List.mem_cons, not_or] at hplain
    dsimp only [Option.some_or]
    rw [sign_of_spelling hspelling hrest,
      Cursor.read_of_rest rfl (Ne.symm hplain.1.2.1) (Ne.symm hplain.2.2.1)]
    rfl
  | none =>
    rw [Option.none_or]
    cases hs : signSpelled? [ch] with
    | some s =>
      dsimp only
      rw [sign_of_spelling (spelling_of_signSpelled? hs) hrest]
      rfl
    | none => rfl

/-- The span of opening quotes. -/
theorem join_quotes {d : Cursor} {n : Nat} (hline : d.line = c.line)
    (hcolumn : d.column = c.column + n) (hn : 0 < n) :
    ∃ h, Span.join c.point (Span.point d.line (d.column - 1))
      = ⟨d.line, c.column, d.column, h⟩ := by
  have hlt : (c.column : Int) < d.column := by omega
  refine ⟨hlt, ?_⟩
  unfold Span.join Cursor.point Span.point
  rw [dif_pos ⟨by simp [hline], by simp; omega⟩]
  simp [hline]

private theorem read_skipLineEnd (h : (c.canRead && c.atLineEnd) = true) :
    ∃ ch, c.read = .ok (ch, skipLineEnd c) := by
  obtain ⟨hcan, hend⟩ := Bool.and_eq_true_iff.mp h
  obtain ⟨result, hread?, hread⟩ := Cursor.read_of_canRead hcan
  refine ⟨result.1, ?_⟩
  rw [hread, skipLineEnd, if_pos hend, hread?]

private theorem skipLineEnd_eq_self (h : (c.canRead && c.atLineEnd) = false) :
    skipLineEnd c = c := by
  unfold skipLineEnd
  split
  · rename_i hend
    have hrest : c.rest = [] := by simpa [Cursor.canRead, hend] using h
    rw [Cursor.read?, hrest]
  · rfl

private theorem openString_eq (hindents : lx.indents.getLast? = some 0) (c : Cursor) :
    openString lx c = (Lexer.openString lx c).mapError malformed := by
  unfold openString Lexer.openString quoteRun
  rw [Cursor.readWhile_eq (by decide) (by decide), indentation_eq hindents]
  simp only [bind, Except.bind, pure, Except.pure, Except.mapError]
  split
  · rename_i hlong
    split
    · obtain ⟨hspan, hjoin⟩ := join_quotes (c := c) (d := (c.takeWhile (· == '"')).2) rfl rfl
        (Nat.lt_trans (by decide) hlong)
      rw [Cursor.spanFrom_eq none hspan, hjoin]
      rfl
    · split
      · rename_i hreads
        obtain ⟨_, hread⟩ := read_skipLineEnd hreads
        rw [hread]
      · rename_i hreads
        rw [skipLineEnd_eq_self (Bool.eq_false_iff.mpr hreads)]
  · split <;> rfl

private theorem code_eq (h : Steady lx) : code lx = lx.code.mapError malformed := by
  have hblanks : lx.cursor.readWhile Cursor.isIndentChar
      = .ok ((lx.cursor.takeWhile Cursor.isIndentChar).1, lx.cursor.skipBlanks) :=
    Cursor.readWhile_eq (by decide) (by decide) _
  unfold code Lexer.code
  rw [mode_eq h.modes, hblanks]
  simp only [bind, Except.bind, pure, Except.pure, Except.mapError]
  generalize lx.cursor.skipBlanks = c
  cases hrest : c.rest with
  | nil =>
    rw [Cursor.peek, hrest]
    rfl
  | cons ch rest =>
    rw [Cursor.peek_of_rest hrest]
    dsimp only
    by_cases hend : c.atLineEnd = true
    · -- The end of a line can be read because something is left.
      obtain ⟨result, hread?, hread⟩ := Cursor.read_of_canRead (Cursor.canRead_of_rest hrest)
      rw [if_pos hend, if_pos hend, hread?, hread]
      split <;> rfl
    rw [if_neg hend, if_neg hend]
    have hch : ch ≠ '\n' ∧ ch ≠ '#' := by simpa [Cursor.atLineEnd, hrest] using hend
    split
    · rw [number_eq]
      cases Lexer.number c <;> rfl
    · split
      · rename_i hname
        rw [word_eq hrest hname]
      · split
        · exact openString_eq h.indents c
        · split
          · rw [Cursor.read_of_rest hrest hch.1 hch.2]
            dsimp only
            rw [pop_eq h.modes]
          · rw [sign_eq hrest (Bool.eq_false_iff.mpr hend), hrest]
            cases sign? (ch :: rest) <;> rfl

private theorem indent_eq (limit : Option Nat) (h : c.atLineStart = true) :
    c.indent limit = ((c.readIndent limit).1.mapError .malformed, (c.readIndent limit).2) := by
  rw [Cursor.indent, if_pos h]
  rcases c.readIndent limit with ⟨_ | _, _⟩ <;> rfl

private theorem lineIndentation_eq (h : Steady lx) (hstart : lx.cursor.atLineStart = true) :
    lineIndentation lx = ((Lexer.lineIndentation lx).1,
      (Lexer.lineIndentation lx).2.mapError malformed) := by
  unfold lineIndentation Lexer.lineIndentation
  rw [indent_eq none hstart, indentation_eq h.indents]
  rcases lx.cursor.readIndent none with ⟨e | level, c⟩
  · rfl
  dsimp only [Except.mapError]
  split
  · rfl
  · split
    · rfl
    · rw [indentation_eq (Indented.getLast?_dropWhile h.indents level)]
      dsimp only [Lexer.indentation]
      split <;> rfl

/-! ### Strings without a failing check -/

private theorem escape_eq (hrest : c.rest = '\\' :: rest) :
    escape c = match rest.head?.bind unescape? with
      | some plain => .ok (plain, c.forward 2 rest.tail)
      | none => .error (.malformed ⟨.invalidEscape rest.head?,
          Span.join (Span.point c.line c.column) (Span.point c.line (c.column + 1 : Nat))⟩) := by
  have hpeek : (c.forward 1 rest).peek = rest.head? := rfl
  unfold escape
  simp only [Cursor.expect_of_rest hrest (by decide) (by decide), hpeek, bind, Except.bind, pure,
    Except.pure]
  cases hplain : rest.head?.bind unescape? with
  | none =>
    dsimp only
    have hlt : (c.column : Int) < c.column + 1 + 1 := by omega
    rw [Cursor.spanFrom_eq _ hlt]
    simp [Span.join, Span.point, Cursor.forward, hlt]
  | some plain =>
    obtain ⟨ch, hch, hplain⟩ := Option.bind_eq_some_iff.mp hplain
    obtain ⟨more, rfl⟩ := List.head?_eq_some_iff.mp hch
    dsimp only
    rw [Cursor.read_of_rest rfl (unescape?_ne_break hplain) (by rintro rfl; cases hplain)]
    rfl

variable {quotes : Nat}

private theorem endsContent_of_rest (hrest : c.rest = ch :: rest) : endsContent quotes c =
    (ch == '\n' || ch == '#' || ch == '{' || startsWithQuotes quotes (ch :: rest)) := by
  simp [endsContent, Cursor.atLineEnd, Cursor.peek, hrest]

private theorem content_of_ends (h : endsContent quotes c = true) :
    content quotes c = .ok ([], c) := by
  rw [content, if_pos h]

private theorem content_of_char (hends : endsContent quotes c = false) {next : Cursor}
    (hchar : contentChar c = .ok (ch, next)) :
    content quotes c = (content quotes next).map fun (text, last) => (ch :: text, last) := by
  rw [content, if_neg (by simp [hends])]
  split
  · rename_i hfailed
    rw [hchar] at hfailed
    cases hfailed
  · rename_i hchar'
    obtain ⟨rfl, rfl⟩ := Prod.mk.inj (Except.ok.inj (hchar.symm.trans hchar'))
    rfl

private theorem content_of_fault (hends : endsContent quotes c = false) {e : Cursor.Fault}
    (hchar : contentChar c = .error e) : content quotes c = .error e := by
  rw [content, if_neg (by simp [hends])]
  split
  · rename_i hfailed
    rw [hchar] at hfailed
    exact congrArg _ (Except.error.inj hfailed).symm
  · rename_i hchar'
    rw [hchar] at hchar'
    cases hchar'

/-- Where a backslash is next, the text of a string goes on. -/
theorem endsContent_backslash (hquotes : 0 < quotes) (hrest : c.rest = '\\' :: rest) :
    endsContent quotes c = false := by
  obtain ⟨n, rfl⟩ := Nat.exists_eq_succ_of_ne_zero (Nat.ne_of_gt hquotes)
  rw [endsContent_of_rest hrest]
  simp [startsWithQuotes, List.replicate_succ]

private theorem contentChar_backslash (hrest : c.rest = '\\' :: rest) :
    contentChar c = match rest.head?.bind unescape? with
      | some plain => .ok (plain, c.forward 2 rest.tail)
      | none => .error (.malformed ⟨.invalidEscape rest.head?,
          Span.join (Span.point c.line c.column) (Span.point c.line (c.column + 1 : Nat))⟩) :=
  (if_pos (Cursor.peek_of_rest hrest)).trans (escape_eq hrest)

/-- Where the text of a string goes on without a backslash, the next character is read. -/
theorem contentChar_of_rest (hrest : c.rest = ch :: rest) (hch : ch ≠ '\\')
    (hends : endsContent quotes c = false) : contentChar c = .ok (ch, c.forward 1 rest) := by
  have hplain : ch ≠ '\n' ∧ ch ≠ '#' := by
    rw [endsContent_of_rest hrest] at hends
    simp only [Bool.or_eq_false_iff, beq_eq_false_iff_ne] at hends
    exact hends.1.1
  rw [contentChar, if_neg (by rw [Cursor.peek_of_rest hrest]; simpa using hch),
    Cursor.read_of_rest hrest hplain.1 hplain.2]

private theorem content_eq_of_rest (hquotes : 0 < quotes) {column : Nat} {cs : List Char} :
    ∀ c : Cursor, c.rest = cs → c.column = column → content quotes c =
      match Lexer.content quotes column cs with
      | .ok (text, last, left) => .ok (text, { c with rest := left, column := last })
      | .error (last, found) => .error (.malformed ⟨.invalidEscape found,
          Span.join (Span.point c.line last) (Span.point c.line (last + 1))⟩) := by
  fun_induction Lexer.content quotes column cs with
  | case1 column =>
    rintro ⟨_, line, _, style⟩ rfl rfl
    exact content_of_ends rfl
  | case2 column =>
    rintro c hrest rfl
    exact content_of_fault (endsContent_backslash hquotes hrest) (contentChar_backslash hrest)
  | case3 column ch rest hplain =>
    rintro c hrest rfl
    have hchar := contentChar_backslash hrest
    rw [List.head?_cons, Option.bind_some, hplain] at hchar
    exact content_of_fault (endsContent_backslash hquotes hrest) hchar
  | case4 column ch rest plain hplain text last left hrec ih
  | case5 column ch rest plain hplain e hrec ih =>
    rintro c hrest rfl
    have hchar := contentChar_backslash hrest
    rw [List.head?_cons, Option.bind_some, hplain] at hchar
    rw [content_of_char (endsContent_backslash hquotes hrest) hchar, ih _ rfl rfl, hrec]
    rfl
  | case6 column ch rest hone htwo hends =>
    rintro ⟨_, line, _, style⟩ rfl rfl
    exact content_of_ends ((endsContent_of_rest rfl).trans hends)
  | case7 column ch rest hone htwo hends text last left hrec ih
  | case8 column ch rest hone htwo hends e hrec ih =>
    rintro c hrest rfl
    have hch : ch ≠ '\\' := by
      rintro rfl
      cases rest with
      | nil => exact hone rfl rfl
      | cons x xs => exact htwo x xs rfl rfl
    have hends := (endsContent_of_rest hrest).trans (Bool.eq_false_iff.mpr hends)
    rw [content_of_char hends (contentChar_of_rest hrest hch hends), ih _ rfl rfl, hrec]
    rfl

/-- Reading the text of a string fails no check. -/
theorem content_eq (hquotes : 0 < quotes) (c : Cursor) :
    content quotes c = (readContent quotes c).mapError .malformed := by
  rw [content_eq_of_rest hquotes c rfl rfl, readContent]
  rcases Lexer.content quotes c.column c.rest with ⟨_, _⟩ | ⟨_, _, _⟩ <;> rfl

private theorem lineString_eq (h : lx.modes ≠ []) :
    lineString lx = lx.lineString.mapError malformed := by
  unfold lineString Lexer.lineString
  rw [content_eq Nat.one_pos]
  rcases readContent 1 lx.cursor with _ | ⟨text, c⟩
  · rfl
  simp only [bind, Except.bind, pure, Except.pure, Except.mapError]
  cases hrest : c.rest with
  | nil =>
    rw [Cursor.peek, hrest]
    rfl
  | cons ch rest =>
    rw [Cursor.peek_of_rest hrest]
    by_cases hopen : ch = '{'
    · subst hopen
      rw [Cursor.expect_of_rest hrest (by decide) (by decide)]
      rfl
    by_cases hquote : ch = '"'
    · subst hquote
      rw [Cursor.read_of_rest hrest (by decide) (by decide)]
      dsimp only
      rw [pop_eq h]
      rfl
    · simp [hopen, hquote]

private theorem blockIndentation_eq (string : BlockString) {start : Cursor}
    (hstart : start.atLineStart = true) :
    blockIndentation string start = ((Lexer.blockIndentation string start).1,
      (Lexer.blockIndentation string start).2.mapError malformed) := by
  unfold blockIndentation Lexer.blockIndentation
  rw [indent_eq _ hstart]
  rcases start.readIndent (some string.baseline) with ⟨e | level, c⟩
  · rfl
  dsimp only [Except.mapError]
  split <;> rfl

private theorem blockContent_eq (h : lx.modes ≠ []) (string : BlockString) (start : Cursor) :
    blockContent lx string start = (lx.blockContent string start).mapError malformed := by
  unfold blockContent Lexer.blockContent
  rw [content_eq string.quotes_pos]
  cases hcontent : readContent string.quotes start with
  | error e => rfl
  | ok result =>
    obtain ⟨text, c⟩ := result
    simp only [bind, Except.bind, pure, Except.pure, Except.mapError]
    cases hrest : c.rest with
    | nil =>
      rw [Cursor.peek, hrest]
      rfl
    | cons ch rest =>
      rw [Cursor.peek_of_rest hrest]
      by_cases hopen : ch = '{'
      · subst hopen
        rw [Cursor.expect_of_rest hrest (by decide) (by decide)]
        rfl
      by_cases hquote : ch = '"'
      · subst hquote
        have hpasses := passes_quotes (startsWithQuotes_of_readContent hcontent hrest)
        have hmany := Cursor.readMany_eq hpasses.rest (by simp) (by simp)
        rw [List.length_replicate] at hmany
        rw [hmany]
        dsimp only
        rw [pop_eq h, hrest]
        rfl
      · obtain ⟨result, hread?, hread⟩ := Cursor.read_of_canRead (Cursor.canRead_of_rest hrest)
        rw [hread, hread?]
        simp [hopen, hquote]

private theorem blockString_eq (h : lx.modes ≠ []) (string : BlockString) :
    blockString lx string = ((lx.blockString string).1,
      (lx.blockString string).2.mapError malformed) := by
  unfold blockString Lexer.blockString
  split
  · rename_i hreads
    rw [blockIndentation_eq string (Bool.and_eq_true_iff.mp hreads).1]
    rcases Lexer.blockIndentation string lx.cursor with ⟨before, e | ⟨string', c⟩⟩
    · rfl
    · exact congrArg (Prod.mk before) (blockContent_eq h string' c)
  · exact congrArg (Prod.mk []) (blockContent_eq h string lx.cursor)

/-! ### Steps without a failing check -/

/-- A step of the lexer as one with checks: its errors are syntax errors. -/
def ofStep : LexerStep → Step
  | .more tokens next => (tokens, .ok (some next))
  | .done tokens => (tokens, .ok none)
  | .fail tokens e => (tokens, .error (malformed e))

private theorem stepTo_eq (lx : Lexer) (before : List Token)
    (result : Except SyntaxError (List Token × Lexer)) :
    stepTo lx before (result.mapError malformed) = ofStep (Lexer.stepTo lx before result) := by
  rcases result with _ | ⟨_, _⟩ <;> rfl

private theorem finish_eq (h : lx.modes ≠ []) (before : List Token) :
    finish lx before = ofStep (lx.finish before) := by
  unfold finish Lexer.finish
  rw [mode_eq h]
  cases lx.mode <;> rfl

private theorem codeStep_eq (h : Steady lx) (before : List Token) :
    codeStep lx before = ofStep (Lexer.codeStep lx before) := by
  unfold codeStep Lexer.codeStep
  split
  · rw [code_eq h, stepTo_eq]
  · exact finish_eq h.modes before

/-- The indentation of a line leaves the stacks filled. -/
theorem Steady.lineIndentation {before : List Token} (h : Steady lx)
    (hline : lx.lineIndentation = (before, .ok next)) : Steady next := by
  rcases lineIndentation_cases hline with hmargin | ⟨_, _, -, -, -, rfl⟩
  · cases hmargin with
    | wider => exact ⟨h.modes, by simp [List.getLast?_cons, h.indents]⟩
    | narrower => exact ⟨h.modes, Indented.getLast?_dropWhile h.indents _⟩
  · exact ⟨h.modes, h.indents⟩

/-- No check of a step fails while both stacks are filled. -/
theorem step_eq (h : Steady lx) : step lx = ofStep lx.step := by
  unfold step Lexer.step
  rw [mode_eq h.modes]
  cases lx.mode with
  | lineString => exact (congrArg _ (lineString_eq h.modes)).trans (stepTo_eq lx [] _)
  | blockString string =>
    dsimp only
    rw [blockString_eq h.modes, stepTo_eq]
  | hole => exact codeStep_eq h []
  | code =>
    dsimp only
    split
    · rename_i hreads
      rw [lineIndentation_eq h (Bool.and_eq_true_iff.mp hreads).1]
      rcases hline : lx.lineIndentation with ⟨before, e | start⟩
      · rfl
      · exact codeStep_eq (h.lineIndentation hline) before
    · exact codeStep_eq h []

/-- While tokens are laid out, both stacks are filled. -/
theorem steady_of_laidOut {text : String} {acc : List Token} (h : LaidOut text acc lx) :
    Steady lx := by
  obtain ⟨_, _, _, _, -, h⟩ := h
  refine ⟨fun hnil => ?_, h.indented.tracks.bottom⟩
  have hnested := h.nested
  rw [hnil] at hnested
  cases hnested

/-- The tokens on the way to a state that the lexer comes to are laid out. -/
theorem laidOut_of_reached {text : String} (h : Reached text lx) :
    ∃ acc, LaidOut text acc lx := by
  induction h with
  | start => exact ⟨[], laidOut_ofText text⟩
  | @step lx next tokens _ hstep ih =>
    obtain ⟨acc, hacc⟩ := ih
    rw [step_eq (steady_of_laidOut hacc)] at hstep
    cases hmore : lx.step with
    | more ts after =>
      rw [hmore] at hstep
      obtain ⟨rfl, hafter⟩ := Prod.mk.inj hstep
      obtain rfl := Option.some.inj (Except.ok.inj hafter)
      exact ⟨acc ++ ts, hacc.step hmore⟩
    | done ts | fail ts e =>
      rw [hmore] at hstep
      cases hstep

/-- In no state that the lexer comes to from a text does a check fail. -/
theorem step_eq_of_reached {text : String} (h : Reached text lx) : step lx = ofStep lx.step := by
  obtain ⟨acc, hacc⟩ := laidOut_of_reached h
  exact step_eq (steady_of_laidOut hacc)

end Checked

end Lexer

end DialogScript
