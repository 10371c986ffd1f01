import DialogScript.Proofs.Lexing.Indentation
import DialogScript.Proofs.Lexing.Places
import DialogScript.Proofs.TokenClasses

/-!
# The layout of tokens

The tokens of a text come in lines. A line is a margin, which opens one block or closes any
number of blocks, some tokens of its own, and the token of its end; after the last line the open
blocks are closed and the source ends. Strings and the holes in them are nested like brackets and
hold nothing of the layout.

The invariant (`InLine`) ties the tokens read so far to the state of the lexer: the stack of
modes is the stack of open brackets, the stack of indentations is the stack that the margins so
far leave behind, and the flag for an open line says whether the line has tokens of its own.
-/

namespace DialogScript

open Text

/-! ### Lines -/

/-- A line of tokens. -/
structure TokenLine where
  /-- The blocks that the line opens or closes. -/
  margin : List Token
  /-- The line's own tokens. -/
  body : List Token
  ending : Token

/-- A margin opens one block or closes any number of blocks. -/
def IsMargin (ts : List Token) : Prop :=
  (∃ t, ts = [t] ∧ t.kind = .indent) ∨ ∀ t ∈ ts, t.kind = .dedent

/-- The width of the line that some tokens start. -/
def lineWidth (text : String) (body : List Token) : Nat :=
  (body.head?.map fun t => marginWidth text t.line).getD 0

namespace TokenLine

/-- All tokens of a line. -/
def tokens (l : TokenLine) : List Token := l.margin ++ l.body ++ [l.ending]

/-- A line has tokens of its own, and each part of it holds what belongs there. -/
structure WellFormed (l : TokenLine) : Prop where
  margin : IsMargin l.margin
  nonempty : l.body ≠ []
  body : ∀ t ∈ l.body, t.kind.isLayout = false
  ending : l.ending.kind = .lineEnd

end TokenLine

/-! ### Blocks -/

/-- How many of the blocks that some tokens open are still open. -/
def openBlocks (ts : List Token) : Nat := blocksOpened ts - blocksClosed ts

/-- No block is closed before it is opened. -/
def ClosesOpened (ts : List Token) : Prop :=
  ∀ n, blocksClosed (ts.take n) ≤ blocksOpened (ts.take n)

/-- The widths and depths of lines that come after some tokens. -/
def lineMarks (text : String) (before : List Token) : List TokenLine → List LineMark
  | [] => []
  | l :: rest =>
    ⟨lineWidth text l.body, openBlocks (before ++ l.tokens)⟩ ::
      lineMarks text (before ++ l.tokens) rest

/-- Tokens that neither open nor close blocks leave the open blocks as they are. -/
theorem openBlocks_append_of_ordinary (ts : List Token) {us : List Token}
    (h : ∀ t ∈ us, t.kind ≠ .indent ∧ t.kind ≠ .dedent) :
    openBlocks (ts ++ us) = openBlocks ts := by
  rw [openBlocks, blocksOpened_append, blocksClosed_append,
    blocksOpened_eq_zero fun t ht => (h t ht).1, blocksClosed_eq_zero fun t ht => (h t ht).2,
    Nat.add_zero, Nat.add_zero, openBlocks]

namespace ClosesOpened

variable {ts us : List Token}

theorem le (h : ClosesOpened ts) : blocksClosed ts ≤ blocksOpened ts := by
  have hall := h ts.length
  rwa [List.take_length] at hall

/-- More tokens keep the order if they do not close more blocks than are open. -/
theorem append (h : ClosesOpened ts) (hus : blocksClosed us ≤ openBlocks ts) :
    ClosesOpened (ts ++ us) := by
  intro n
  rw [List.take_append, blocksClosed_append, blocksOpened_append]
  rcases Nat.le_total n ts.length with hle | hle
  · rw [Nat.sub_eq_zero_of_le hle, List.take_zero]
    exact Nat.add_le_add (h n) (Nat.le_refl 0)
  · have hall := h.le
    have hpart : blocksClosed (us.take (n - ts.length)) ≤ blocksClosed us :=
      List.Sublist.countP_le (List.take_sublist _ _)
    rw [List.take_of_length_le hle]
    unfold openBlocks at hus
    omega

theorem nil : ClosesOpened [] := by
  intro n
  simp [blocksClosed]

end ClosesOpened

private theorem lineMarks_snoc (text : String) (before : List Token) (lines : List TokenLine)
    (l : TokenLine) :
    lineMarks text before (lines ++ [l]) = lineMarks text before lines ++
      [⟨lineWidth text l.body, openBlocks (before ++ lines.flatMap TokenLine.tokens ++ l.tokens)⟩]
    := by
  induction lines generalizing before with
  | nil => simp [lineMarks]
  | cons first rest ih => simp [lineMarks, ih]

/-! ### Strings and holes -/

/-- What tokens can stand inside of. -/
inductive Bracket where
  | string
  | hole
  deriving DecidableEq

/-- The open strings and holes after a token of a kind, the innermost first, or nothing if the
token cannot stand there. Directly inside a string there are only fragments of text and holes,
and the layout is outside of all strings. -/
def Bracket.after : List Bracket → TokenKind → Option (List Bracket)
  | bs, .text => some bs
  | .string :: bs, .stringEnd => some bs
  | .string :: bs, .holeStart => some (.hole :: .string :: bs)
  | .string :: _, _ => none
  | .hole :: bs, .holeEnd => some bs
  | _, .holeEnd => none
  | _, .holeStart => none
  | _, .stringEnd => none
  | bs, .stringStart => some (.string :: bs)
  | bs, kind => if kind.isLayout && !bs.isEmpty then none else some bs

/-- The open strings and holes after some tokens. -/
def nesting (bs : List Bracket) (ts : List Token) : Option (List Bracket) :=
  ts.foldlM (fun bs t => Bracket.after bs t.kind) bs

@[simp]
theorem nesting_cons (bs : List Bracket) (t : Token) (ts : List Token) :
    nesting bs (t :: ts) = (Bracket.after bs t.kind).bind (nesting · ts) := rfl

theorem nesting_append {bs bs' : List Bracket} {ts us : List Token}
    (h : nesting bs ts = some bs') : nesting bs (ts ++ us) = nesting bs' us := by
  unfold nesting at h ⊢
  rw [List.foldlM_append, h]
  rfl

/-- Outside of strings the layout keeps nothing open. -/
theorem nesting_layout {ts : List Token} (h : ∀ t ∈ ts, t.kind.isLayout = true) :
    nesting [] ts = some [] := by
  induction ts with
  | nil => rfl
  | cons t ts ih =>
    have hkind : Bracket.after [] t.kind = some [] := by
      have ht := h t (by simp)
      cases hk : t.kind <;> simp [hk, TokenKind.isLayout] at ht <;> rfl
    rw [nesting_cons, hkind]
    exact ih fun u hu => h u (by simp [hu])

theorem nesting_texts {ts : List Token} (h : ∀ t ∈ ts, t.kind = .text) (bs : List Bracket) :
    nesting bs ts = some bs := by
  induction ts with
  | nil => rfl
  | cons t ts ih =>
    have hkind : Bracket.after bs t.kind = some bs := by
      rw [h t (by simp)]
      cases bs <;> rfl
    rw [nesting_cons, hkind]
    exact ih fun u hu => h u (by simp [hu])

/-- The layout of the tokens of a text: some lines, the blocks that are closed after them, and
the end of the source. -/
structure CompleteLayout (text : String) (lines : List TokenLine) (closing : List Token)
    (last : Token) (tokens : List Token) : Prop where
  tokens_eq : tokens = lines.flatMap TokenLine.tokens ++ closing ++ [last]
  wellFormed : ∀ l ∈ lines, l.WellFormed
  dedents : ∀ t ∈ closing, t.kind = .dedent
  sourceEnd : last.kind = .sourceEnd
  /-- Every block that is opened is closed, and not before. -/
  blocks : blocksOpened tokens = blocksClosed tokens
  closesOpened : ClosesOpened tokens
  /-- Every string and every hole is closed, with nothing of the layout in it. -/
  strings : nesting [] tokens = some []
  marks : Regular (lineMarks text [] lines)

namespace Lexer

variable {lx next : Lexer} {ts : List Token} {bs : List Bracket}

/-- The modes of the lexer and the strings and holes that are open. -/
inductive Nested : List Mode → List Bracket → Prop
  | code : Nested [.code] []
  | string {m : Mode} {ms : List Mode} {bs : List Bracket} (hm : m.isString = true)
      (h : Nested ms bs) (htop : bs.head? ≠ some .string) : Nested (m :: ms) (.string :: bs)
  | hole {ms : List Mode} {bs : List Bracket} (h : Nested ms (.string :: bs)) :
      Nested (.hole :: ms) (.hole :: .string :: bs)

namespace Nested

theorem of_code (h : Nested lx.modes bs) (hmode : lx.mode = .code) : bs = [] := by
  unfold mode at hmode
  generalize lx.modes = ms at h hmode
  cases h with
  | code => rfl
  | string hm =>
    obtain rfl := hmode
    cases hm
  | hole => cases hmode

theorem of_isString (h : Nested lx.modes bs) (hmode : lx.mode.isString = true) :
    ∃ rest, bs = .string :: rest ∧ Nested lx.modes.tail rest ∧ rest.head? ≠ some .string := by
  unfold mode at hmode
  generalize lx.modes = ms at h hmode
  cases h with
  | code => cases hmode
  | string _ h htop => exact ⟨_, rfl, h, htop⟩
  | hole => cases hmode

private theorem of_hole (h : Nested lx.modes bs) (hmode : lx.mode = .hole) :
    ∃ rest, bs = .hole :: .string :: rest ∧ Nested lx.modes.tail (.string :: rest) := by
  unfold mode at hmode
  generalize lx.modes = ms at h hmode
  cases h with
  | code => cases hmode
  | string hm =>
    obtain rfl := hmode
    cases hm
  | hole h => exact ⟨_, rfl, h⟩

/-- In code and in holes no string is open. -/
theorem head?_ne_string (h : Nested lx.modes bs) (hmode : lx.mode.isString = false) :
    bs.head? ≠ some .string := by
  unfold mode at hmode
  generalize lx.modes = ms at h hmode
  cases h with
  | code => simp
  | string hm => simp [hm] at hmode
  | hole => simp

end Nested

/-! ### Steps within a line -/

/-- What a step within a line does: its tokens are no layout, and the modes keep up with the
strings and holes that the tokens open and close. -/
structure Inner (lx : Lexer) (bs : List Bracket) (ts : List Token) (next : Lexer)
    (bs' : List Bracket) : Prop where
  ordinary : ∀ t ∈ ts, t.kind.isLayout = false
  nesting : nesting bs ts = some bs'
  nested : Nested next.modes bs'
  indents : next.indents = lx.indents
  column : bs' = [] → 1 < next.cursor.column

private theorem after_simple {kind : TokenKind} (hkind : isSimple kind = true)
    (hbs : bs.head? ≠ some .string) : Bracket.after bs kind = some bs := by
  rcases bs with _ | ⟨_ | _, bs⟩
  · cases kind <;> simp [isSimple] at hkind <;> rfl
  · simp at hbs
  · cases kind <;> simp [isSimple] at hkind <;> rfl

private theorem after_stringStart (hbs : bs.head? ≠ some .string) :
    Bracket.after bs .stringStart = some (.string :: bs) := by
  rcases bs with _ | ⟨_ | _, bs⟩
  · rfl
  · simp at hbs
  · rfl

theorem isLayout_of_isSimple {kind : TokenKind} (h : isSimple kind = true) :
    kind.isLayout = false := by
  cases kind <;> simp [isSimple] at h <;> rfl

/-- The opening quotes of a string nest it in what is open. -/
theorem inner_stringStart {quotes : List Char} {c c' d : Cursor} {m : Mode}
    (hnested : Nested lx.modes bs) (htop : bs.head? ≠ some .string) (hm : m.isString = true) :
    Inner lx bs [tokenBetween .stringStart quotes c c'] ((lx.moveTo d).push m) (.string :: bs) := by
  refine ⟨?_, ?_, .string hm hnested htop, rfl, ?_⟩
  · simp [TokenKind.isLayout]
  · rw [nesting_cons, kind_tokenBetween, after_stringStart htop]
    rfl
  · exact fun hnil => absurd hnil (List.cons_ne_nil _ _)

/-- A step in code ends the source, ends a line or reads one token within its line. -/
theorem CodeMove.inner (h : CodeMove lx ts next) (hnested : Nested lx.modes bs)
    (hmode : lx.mode.isString = false) (hcolumn : 1 ≤ lx.cursor.column) :
    (ts = [] ∧ lx.cursor.skipBlanks.rest = [] ∧ next = lx.moveTo lx.cursor.skipBlanks) ∨
      (∃ ch d, lx.mode ≠ .hole ∧ lx.cursor.skipBlanks.atLineEnd = true ∧
        lx.cursor.skipBlanks.read? = some (ch, d) ∧
        ts = [.atSpan .lineEnd "\n" lx.cursor.skipBlanks.point] ∧ next = lx.moveTo d) ∨
      ∃ t bs', ts = [t] ∧ t.line = lx.cursor.line ∧ Inner lx bs ts next bs' := by
  have htop := hnested.head?_ne_string hmode
  have hblank := Cursor.passes_skipBlanks lx.cursor
  have hline : (lx.cursor.skipBlanks.line : Int) = lx.cursor.line := congrArg _ hblank.line
  cases h with
  | blank hrest => exact .inl ⟨rfl, hrest, rfl⟩
  | lineEnd hhole hend hread => exact .inr (.inl ⟨_, _, hhole, hend, hread, rfl, rfl⟩)
  | @token d t hsimple hreads =>
    obtain ⟨cs, hpasses, hcs, -⟩ := hreads.passes
    have hlt := hpasses.column_lt hcs
    have hle := hblank.column_le
    refine .inr (.inr ⟨t, bs, rfl, hreads.line.trans hline, ?_, ?_, hnested, rfl, ?_⟩)
    · simpa using isLayout_of_isSimple hsimple
    · rw [nesting_cons, after_simple hsimple htop]
      rfl
    · intro _
      exact Nat.lt_of_le_of_lt (Nat.le_trans hcolumn hle) hlt
  | openLine hpasses hquotes =>
    exact .inr (.inr ⟨_, _, rfl, hline, inner_stringStart hnested htop rfl⟩)
  | openBlock hpasses hquotes =>
    exact .inr (.inr ⟨_, _, rfl, hline, inner_stringStart hnested htop rfl⟩)
  | closeHole hhole hpasses =>
    obtain ⟨rest, rfl, hrest⟩ := hnested.of_hole hhole
    refine .inr (.inr ⟨_, .string :: rest, rfl, hline, ?_, rfl, hrest, rfl, ?_⟩)
    · simp [TokenKind.isLayout, Token.atSpan]
    · exact fun hnil => absurd hnil (List.cons_ne_nil _ _)

private theorem isLayout_of_areTexts {texts : List Token} (h : AreTexts texts) :
    ∀ t ∈ texts, t.kind.isLayout = false := by
  intro t ht
  rw [(h t ht).1]
  rfl

/-- A step in a string gives nothing of the layout. -/
theorem StringMove.ordinary (h : StringMove lx ts next) : ∀ t ∈ ts, t.kind.isLayout = false := by
  cases h with
  | hole htexts =>
    exact List.forall_mem_append.mpr
      ⟨isLayout_of_areTexts htexts, List.forall_mem_singleton.mpr rfl⟩
  | close htexts _ _ _ hkind =>
    exact List.forall_mem_append.mpr
      ⟨isLayout_of_areTexts htexts, List.forall_mem_singleton.mpr (by rw [hkind]; rfl)⟩
  | lineBreak htexts => exact isLayout_of_areTexts htexts

/-- A step in a string stays within its line. -/
theorem StringMove.inner (h : StringMove lx ts next) (hnested : Nested lx.modes bs)
    (hmode : lx.mode.isString = true) (hcolumn : 1 ≤ lx.cursor.column) :
    ∃ bs', Inner lx bs ts next bs' := by
  obtain ⟨rest, rfl, hrest, htop⟩ := hnested.of_isString hmode
  have hordinary := h.ordinary
  cases h with
  | hole htexts hreach hpasses hstring =>
    refine ⟨.hole :: .string :: rest, hordinary, ?_, .hole (.string hstring hrest htop), rfl, ?_⟩
    · rw [nesting_append (nesting_texts (fun t ht => (htexts t ht).1) _)]
      rfl
    · exact fun hnil => absurd hnil (List.cons_ne_nil _ _)
  | close htexts hreach hpasses hquotes hkind hmade =>
    refine ⟨rest, hordinary, ?_, hrest, rfl, ?_⟩
    · rw [nesting_append (nesting_texts (fun t ht => (htexts t ht).1) _), nesting_cons, hkind]
      rfl
    · intro _
      exact Nat.lt_of_le_of_lt (hreach.one_le_column hcolumn) (hpasses.column_lt hquotes)
  | lineBreak htexts hreach hstring =>
    refine ⟨.string :: rest, hordinary, ?_, .string hstring hrest htop, rfl, ?_⟩
    · exact nesting_texts (fun t ht => (htexts t ht).1) _
    · exact fun hnil => absurd hnil (List.cons_ne_nil _ _)

/-! ### The invariant -/

/-- The tokens of some lines and of the line after them, as far as it goes. -/
def tokensUpTo (lines : List TokenLine) (margin body : List Token) : List Token :=
  lines.flatMap TokenLine.tokens ++ margin ++ body

/-- The marks of some lines and of the line after them, once it has started. -/
def marksUpTo (text : String) (lines : List TokenLine) (margin body : List Token) :
    List LineMark :=
  lineMarks text [] lines ++
    if body = [] then [] else [⟨lineWidth text body, openBlocks (tokensUpTo lines margin body)⟩]

/-- The state of the lexer after some lines and a part of the next line. -/
structure InLine (text : String) (lines : List TokenLine) (margin body : List Token)
    (bs : List Bracket) (lx : Lexer) : Prop where
  wellFormed : ∀ l ∈ lines, l.WellFormed
  isMargin : IsMargin margin
  ordinary : ∀ t ∈ body, t.kind.isLayout = false
  stands : lx.cursor.Stands (normalizeBreaks text.toList)
  column : 1 ≤ lx.cursor.column
  /-- Between two lines nothing is open and the cursor is at the start of a line. -/
  between : body = [] → margin = [] ∧ bs = [] ∧ lx.cursor.column = 1
  /-- Within a line, a string that spans lines is the only way to the start of a line. -/
  within : body ≠ [] → bs = [] → 1 < lx.cursor.column
  lineOpen : lx.lineOpen = !body.isEmpty
  nested : Nested lx.modes bs
  nesting : nesting [] (tokensUpTo lines margin body) = some bs
  closes : ClosesOpened (tokensUpTo lines margin body)
  depth : openBlocks (tokensUpTo lines margin body) + 1 = lx.indents.length
  indented : Indented lx.indents (marksUpTo text lines margin body)

theorem lineOpenAfter_append (isOpen : Bool) (ts us : List Token) :
    lineOpenAfter isOpen (ts ++ us) = lineOpenAfter (lineOpenAfter isOpen ts) us :=
  List.foldl_append

private theorem lineOpenAfter_of_ordinary (h : ∀ t ∈ ts, t.kind.isLayout = false) (isOpen : Bool) :
    lineOpenAfter isOpen ts = (isOpen || !ts.isEmpty) := by
  induction ts generalizing isOpen with
  | nil => simp [lineOpenAfter]
  | cons t ts ih =>
    have ht := h t (by simp)
    have hstep : lineOpenAfter isOpen (t :: ts) = lineOpenAfter true ts := by
      cases hk : t.kind <;> simp [lineOpenAfter, hk, TokenKind.isLayout] at ht ⊢
    rw [hstep, ih fun u hu => h u (by simp [hu])]
    simp

private theorem ordinary_blocks (h : ∀ t ∈ ts, t.kind.isLayout = false) :
    ∀ t ∈ ts, t.kind ≠ .indent ∧ t.kind ≠ .dedent := by
  intro t ht
  have hkind := h t ht
  constructor <;> intro heq <;> rw [heq] at hkind <;> cases hkind

variable {text : String} {lines : List TokenLine} {margin body : List Token}

/-- A step within a line that has started. -/
theorem InLine.inner {bs' : List Bracket} (h : InLine text lines margin body bs lx)
    (hbody : body ≠ []) (hinner : Inner lx bs ts next bs')
    (hreach : lx.cursor.Reaches next.cursor) :
    InLine text lines margin (body ++ ts) bs'
      { next with lineOpen := lineOpenAfter lx.lineOpen ts } := by
  have hupTo : tokensUpTo lines margin (body ++ ts) = tokensUpTo lines margin body ++ ts := by
    simp [tokensUpTo]
  have hbody' : body ++ ts ≠ [] := by simp [hbody]
  have hopen := openBlocks_append_of_ordinary (tokensUpTo lines margin body)
    (ordinary_blocks hinner.ordinary)
  have hclosed : blocksClosed ts = 0 :=
    blocksClosed_eq_zero fun t ht => (ordinary_blocks hinner.ordinary t ht).2
  have hwidth : lineWidth text (body ++ ts) = lineWidth text body := by
    cases body with
    | nil => exact absurd rfl hbody
    | cons t body => rfl
  refine ⟨h.wellFormed, h.isMargin, ?_, h.stands.reaches hreach, hreach.one_le_column h.column,
    ?_, ?_, ?_, hinner.nested, ?_, ?_, ?_, ?_⟩
  · intro t ht
    exact (List.mem_append.mp ht).elim (h.ordinary t) (hinner.ordinary t)
  · exact fun hnil => absurd hnil hbody'
  · exact fun _ => hinner.column
  · rw [lineOpenAfter_of_ordinary hinner.ordinary, h.lineOpen]
    cases body <;> simp at hbody ⊢
  · rw [hupTo, nesting_append h.nesting, hinner.nesting]
  · rw [hupTo]
    exact h.closes.append (by omega)
  · rw [hupTo, hopen, hinner.indents]
    exact h.depth
  · -- The line has its mark since its first token.
    have hmarks : marksUpTo text lines margin (body ++ ts) = marksUpTo text lines margin body := by
      simp only [marksUpTo, if_neg hbody, if_neg hbody', hwidth, hupTo, hopen]
    rw [hmarks, hinner.indents]
    exact h.indented

/-- The end of a line that has started. -/
theorem InLine.lineEnd {d : Cursor} {t : Token} (h : InLine text lines margin body [] lx)
    (hbody : body ≠ []) (ht : t.kind = .lineEnd)
    (hstands : d.Stands (normalizeBreaks text.toList)) (hcolumn : d.column = 1) :
    InLine text (lines ++ [⟨margin, body, t⟩]) [] [] []
      { lx.moveTo d with lineOpen := lineOpenAfter lx.lineOpen [t] } := by
  have hupTo : tokensUpTo (lines ++ [⟨margin, body, t⟩]) [] []
      = tokensUpTo lines margin body ++ [t] := by
    simp [tokensUpTo, TokenLine.tokens]
  have hopen := openBlocks_append_of_ordinary (tokensUpTo lines margin body)
    (show ∀ u ∈ [t], _ by simp [ht])
  refine ⟨?_, .inr (List.forall_mem_nil _), List.forall_mem_nil _, hstands,
    Nat.le_of_eq hcolumn.symm, fun _ => ⟨rfl, rfl, hcolumn⟩, fun hne => absurd rfl hne, ?_,
    h.nested, ?_, ?_, ?_, ?_⟩
  · intro l hl
    rcases List.mem_append.mp hl with hl | hl
    · exact h.wellFormed l hl
    · rw [List.mem_singleton.mp hl]
      exact ⟨h.isMargin, hbody, h.ordinary, ht⟩
  · simp [lineOpenAfter, ht]
  · rw [hupTo, nesting_append h.nesting]
    exact nesting_layout (by simp [ht, TokenKind.isLayout])
  · rw [hupTo]
    exact h.closes.append (by simp [blocksClosed, ht])
  · rw [hupTo, hopen]
    exact h.depth
  · have hmarks : marksUpTo text (lines ++ [⟨margin, body, t⟩]) [] []
        = marksUpTo text lines margin body := by
      have htokens : [] ++ lines.flatMap TokenLine.tokens ++ (margin ++ body ++ [t])
          = tokensUpTo lines margin body ++ [t] := by
        simp [tokensUpTo]
      simp only [marksUpTo, if_neg hbody, if_true, List.append_nil, lineMarks_snoc,
        TokenLine.tokens, htokens, hopen]
    rw [hmarks]
    exact h.indented

/-- The margin of a line: what it does to the blocks and to the marks. -/
theorem Margin.blocks {start : Lexer} {acc : List Token} {marks : List LineMark}
    (hmargin : Margin lx margin start) (hacc : ClosesOpened acc)
    (hdepth : openBlocks acc + 1 = lx.indents.length) (hindented : Indented lx.indents marks) :
    IsMargin margin ∧ (∀ t ∈ margin, t.kind = .indent ∨ t.kind = .dedent) ∧
      ClosesOpened (acc ++ margin) ∧ openBlocks (acc ++ margin) + 1 = start.indents.length ∧
      ∃ level c, lx.cursor.readIndent none = (.ok level, c) ∧ c.canRead = true ∧
        start.cursor = c ∧ start.modes = lx.modes ∧ start.lineOpen = lx.lineOpen ∧
        Indented start.indents (marks ++ [⟨level, openBlocks (acc ++ margin)⟩]) := by
  have hle := hacc.le
  unfold openBlocks at hdepth
  cases hmargin with
  | @wider level c hread hcan hwider =>
    have hopen : openBlocks (acc ++ [⟨.indent, "", c.line, lx.indentation + 1, level + 1⟩])
        = lx.indents.length := by
      simp only [openBlocks, blocksOpened_append, blocksClosed_append]
      simp only [blocksOpened, blocksClosed, List.countP_singleton] at hdepth hle ⊢
      simp only [beq_self_eq_true, if_true]
      simp
      omega
    refine ⟨.inl ⟨_, rfl, rfl⟩, by simp, hacc.append (by simp [blocksClosed]), by simp [hopen],
      level, c, hread, hcan, rfl, rfl, rfl, ?_⟩
    rw [hopen]
    exact .wider hindented hwider
  | @narrower level c hread hcan hnarrower hopen =>
    have hkinds : ∀ t ∈ (lx.indents.takeWhile (level < ·)).map fun _ =>
        Token.atSpan .dedent "" (Span.point c.line (level + 1)), t.kind = .dedent := by
      intro t ht
      obtain ⟨_, -, rfl⟩ := List.mem_map.mp ht
      rfl
    have hclosed := blocksClosed_eq_length hkinds
    have hopened := blocksOpened_eq_zero fun t ht => by
      rw [hkinds t ht]
      simp
    have hlength := congrArg List.length
      (List.takeWhile_append_dropWhile (p := fun x => decide (level < x)) (l := lx.indents))
    have hpos : 0 < (lx.indents.dropWhile (level < ·)).length := by
      have hbottom := Indented.getLast?_dropWhile hindented.tracks.bottom level
      exact List.length_pos_of_mem (List.mem_of_getLast? hbottom)
    rw [List.length_append] at hlength
    rw [List.length_map] at hclosed
    refine ⟨.inr hkinds, fun t ht => .inr (hkinds t ht), hacc.append ?_, ?_, level, c, hread,
      hcan, rfl, rfl, rfl, ?_⟩
    · rw [hclosed, openBlocks]
      omega
    · simp only [openBlocks, blocksOpened_append, blocksClosed_append, hclosed, hopened]
      omega
    · have hdepth' : openBlocks (acc ++ (lx.indents.takeWhile (level < ·)).map fun _ =>
          Token.atSpan .dedent "" (Span.point c.line (level + 1)))
          = (lx.indents.dropWhile (level < ·)).length - 1 := by
        simp only [openBlocks, blocksOpened_append, blocksClosed_append, hclosed, hopened]
        omega
      rw [hdepth']
      exact .narrower hindented hnarrower hopen

/-- Between two lines, reading indentation comes to the first place of the next line. -/
theorem InLine.startsLine {level : Nat} {c : Cursor} (h : InLine text lines [] [] [] lx)
    (hread : lx.cursor.readIndent none = (.ok level, c)) (hcan : c.canRead = true) :
    Cursor.StartsLine (normalizeBreaks text.toList) level c := by
  rcases h.stands with hnil | ⟨part, hstands⟩
  · rw [Cursor.readIndent] at hread
    split at hread
    · obtain ⟨-, rfl⟩ := Prod.mk.inj hread
      simp [Cursor.canRead, hnil] at hcan
    · rename_i hstep
      simp [Cursor.read?, hnil] at hstep
  · have hcolumn := (h.between rfl).2.2
    have hpart : part = [] := by
      rw [hstands.column] at hcolumn
      exact List.length_eq_zero_iff.mp (by omega)
    subst hpart
    exact Cursor.startsLine_of_readIndent hstands (List.forall_mem_nil _) hread hcan

/-- The first step of a line reads its margin and one token. -/
theorem InLine.start {start : Lexer} {before : List Token}
    (h : InLine text lines [] [] [] lx) (hmode : lx.mode = .code)
    (hmargin : Margin lx before start) (hcode : CodeMove start ts next) :
    ∃ bs', InLine text lines before ts bs'
      { next with lineOpen := lineOpenAfter lx.lineOpen (before ++ ts) } := by
  have hreach := hmargin.reaches.trans hcode.reaches
  have hupTo : ∀ us, tokensUpTo lines before us = tokensUpTo lines [] [] ++ before ++ us := by
    simp [tokensUpTo]
  have hmarks : marksUpTo text lines [] [] = lineMarks text [] lines := by simp [marksUpTo]
  obtain ⟨hisMargin, hkinds, hcloses, hdepth, level, c, hread, hcan, hcursor, hmodes, hflag,
    hindented⟩ := hmargin.blocks h.closes h.depth (hmarks ▸ h.indented)
  have hstarts := h.startsLine hread hcan
  have hblank : start.cursor.skipBlanks = start.cursor := by
    rw [hcursor]
    exact hstarts.skipBlanks_eq
  obtain ⟨ch, rest, hrest, -, hend⟩ := hstarts.starts
  have hnested : Nested start.modes [] := hmodes ▸ h.nested
  have hstring : start.mode.isString = false := by
    unfold mode at hmode ⊢
    rw [hmodes, hmode]
    rfl
  have hcolumn : 1 ≤ start.cursor.column := hmargin.reaches.one_le_column h.column
  -- The margin ends at text, so the step neither ends the source nor the line.
  rcases hcode.inner hnested hstring hcolumn with
    ⟨-, hnil, -⟩ | ⟨_, _, -, hlineEnd, -⟩ | ⟨t, bs', rfl, hline, hinner⟩
  · rw [hblank, hcursor, hrest] at hnil
    cases hnil
  · rw [hblank, hcursor, hend] at hlineEnd
    cases hlineEnd
  refine ⟨bs', h.wellFormed, hisMargin, hinner.ordinary, h.stands.reaches hreach,
    hreach.one_le_column h.column, fun hnil => absurd hnil (List.cons_ne_nil _ _),
    fun _ => hinner.column, ?_, hinner.nested, ?_, ?_, ?_, ?_⟩
  · have hflag := lineOpenAfter_of_ordinary hinner.ordinary (lineOpenAfter lx.lineOpen before)
    rw [← lineOpenAfter_append] at hflag
    simpa using hflag
  · have hlayout : DialogScript.nesting [] before = some [] := by
      refine nesting_layout fun u hu => ?_
      rcases hkinds u hu with hk | hk <;> rw [hk] <;> rfl
    rw [hupTo, List.append_assoc, nesting_append h.nesting, nesting_append hlayout,
      hinner.nesting]
  · rw [hupTo]
    have hclosed := blocksClosed_eq_zero fun u hu => (ordinary_blocks hinner.ordinary u hu).2
    exact hcloses.append (by omega)
  · rw [hupTo, openBlocks_append_of_ordinary _ (ordinary_blocks hinner.ordinary), hinner.indents]
    exact hdepth
  · -- The mark of the new line: the first token stands on the line whose margin was read.
    have hwidth : lineWidth text [t] = level := by
      change marginWidth text t.line = level
      rw [hline, hcursor]
      exact hstarts.marginWidth_eq
    have hnew : marksUpTo text lines before [t] = lineMarks text [] lines
        ++ [⟨level, openBlocks (tokensUpTo lines [] [] ++ before)⟩] := by
      simp only [marksUpTo, if_neg (List.cons_ne_nil t []), hwidth, hupTo,
        openBlocks_append_of_ordinary _ (ordinary_blocks hinner.ordinary)]
    rw [hnew, hinner.indents]
    exact hindented

/-- The tokens read so far are some lines and a part of the next line. -/
def LaidOut (text : String) (acc : List Token) (lx : Lexer) : Prop :=
  ∃ lines margin body bs, acc = tokensUpTo lines margin body ∧
    InLine text lines margin body bs lx

theorem laidOut_ofText (text : String) : LaidOut text [] (ofText text) := by
  refine ⟨[], [], [], [], rfl, ?_⟩
  refine ⟨by simp, .inr (by simp), by simp, .inr ⟨[], Cursor.standsAfter_ofText text⟩,
    Nat.le_refl 1, fun _ => ⟨rfl, rfl, rfl⟩, fun hne => absurd rfl hne, rfl, .code, rfl, .nil, rfl,
    .start⟩

/-- Every step keeps the tokens laid out. -/
theorem LaidOut.step {acc : List Token} (h : LaidOut text acc lx)
    (hstep : lx.step = .more ts next) : LaidOut text (acc ++ ts) next := by
  obtain ⟨lines, margin, body, bs, rfl, h⟩ := h
  obtain ⟨last, hmove, rfl⟩ := step_more hstep
  have hreach := hmove.reaches
  cases hmove with
  | string hmode hstring =>
    obtain ⟨bs', hinner⟩ := hstring.inner h.nested hmode h.column
    -- Between lines nothing is open, so a string is always read within a line.
    have hbody : body ≠ [] := by
      intro hnil
      obtain ⟨-, rfl, -⟩ := h.between hnil
      obtain ⟨_, hbs, -⟩ := h.nested.of_isString hmode
      cases hbs
    exact ⟨lines, margin, body ++ ts, bs', by simp [tokensUpTo], h.inner hbody hinner hreach⟩
  | inside hmode hcode =>
    have hstring : lx.mode.isString = false := by
      rcases hmode with hmode | ⟨hmode, -⟩ <;> rw [hmode] <;> rfl
    have hbody : body ≠ [] := by
      intro hnil
      obtain ⟨-, rfl, hcolumn⟩ := h.between hnil
      rcases hmode with hmode | ⟨-, hne⟩
      · obtain ⟨_, hbs, -⟩ := h.nested.of_hole hmode
        cases hbs
      · exact hne hcolumn
    rcases hcode.inner h.nested hstring h.column with
      ⟨rfl, hrest, rfl⟩ | ⟨ch, d, hhole, hend, hread, rfl, rfl⟩ | ⟨t, bs', rfl, -, hinner⟩
    · -- Blanks at the end of the source give no token; the line stays as it is.
      have hcolumn := (Cursor.passes_skipBlanks lx.cursor).column_le
      have hinner : Inner lx bs [] (lx.moveTo lx.cursor.skipBlanks) bs :=
        ⟨by simp, rfl, h.nested, rfl, fun hnil => Nat.lt_of_lt_of_le (h.within hbody hnil) hcolumn⟩
      exact ⟨lines, margin, body ++ [], bs, by simp [tokensUpTo], h.inner hbody hinner hreach⟩
    · obtain rfl : bs = [] := by
        rcases hmode with hmode | ⟨hmode, -⟩
        · exact absurd hmode hhole
        · exact h.nested.of_code hmode
      have hcolumn := (Cursor.nextLine_of_read? hend hread).2
      exact ⟨_, [], [], [], by simp [tokensUpTo, TokenLine.tokens],
        h.lineEnd hbody rfl (h.stands.reaches hreach) hcolumn⟩
    · exact ⟨lines, margin, body ++ [t], bs', by simp [tokensUpTo], h.inner hbody hinner hreach⟩
  | line hmode hcolumn hmargin hcode =>
    obtain rfl := h.nested.of_code hmode
    -- Outside strings the cursor is at the start of a line only between lines.
    obtain rfl : body = [] := by
      by_cases hbody : body = []
      · exact hbody
      · have := h.within hbody rfl
        omega
    obtain ⟨rfl, -⟩ := h.between rfl
    obtain ⟨bs', hstart⟩ := h.start hmode hmargin hcode
    exact ⟨lines, _, _, bs', by simp [tokensUpTo], hstart⟩

/-- At the end of the source all lines are complete once an open one is closed. -/
theorem LaidOut.lines_closed {acc : List Token} (h : LaidOut text acc lx)
    (hmode : lx.mode = .code) {t : Token} (ht : t.kind = .lineEnd) :
    ∃ lines last, acc ++ (if lx.lineOpen then [t] else []) = tokensUpTo lines [] [] ∧
      InLine text lines [] [] [] last ∧ last.indents = lx.indents := by
  obtain ⟨lines, margin, body, bs, rfl, h⟩ := h
  obtain rfl := h.nested.of_code hmode
  by_cases hbody : body = []
  · obtain ⟨rfl, -⟩ := h.between hbody
    subst hbody
    refine ⟨lines, lx, ?_, h, rfl⟩
    simp [h.lineOpen]
  · have hopen : lx.lineOpen = true := by
      rw [h.lineOpen]
      cases body <;> simp at hbody ⊢
    have hclosed := h.lineEnd (d := ⟨[], 1, 1, none⟩) hbody ht (.inl rfl) rfl
    refine ⟨_, _, ?_, hclosed, rfl⟩
    simp [hopen, tokensUpTo, TokenLine.tokens]

/-- The last step completes the tokens. -/
theorem LaidOut.complete {acc : List Token} (h : LaidOut text acc lx)
    (hstep : lx.step = .done ts) :
    ∃ lines closing last, CompleteLayout text lines closing last (acc ++ ts) := by
  obtain ⟨hmode, c, -, rfl⟩ := step_done hstep
  obtain ⟨lines, next, hacc, h, hindents⟩ :=
    h.lines_closed hmode (t := .atSpan .lineEnd "\n" c.point) rfl
  refine ⟨lines, lx.indents.dropLast.map fun _ => .atSpan .dedent "" c.point,
    .atSpan .sourceEnd "" c.point, ?_⟩
  rw [← List.append_assoc, ← List.append_assoc, hacc]
  have hdedents : ∀ t ∈ lx.indents.dropLast.map fun _ => Token.atSpan .dedent "" c.point,
      t.kind = .dedent := by
    intro t ht
    obtain ⟨_, -, rfl⟩ := List.mem_map.mp ht
    rfl
  have hclosed := blocksClosed_eq_length hdedents
  have hopened := blocksOpened_eq_zero fun t ht => by
    rw [hdedents t ht]
    simp
  have hdepth := h.depth
  have hle := h.closes.le
  -- The widths on the stack are one more than the open blocks: the bottom is no block.
  rw [List.length_map, List.length_dropLast] at hclosed
  rw [hindents] at hdepth
  have hend : ∀ t ∈ [Token.atSpan .sourceEnd "" c.point], t.kind ≠ .dedent := by
    simp [Token.atSpan]
  have hend' : ∀ t ∈ [Token.atSpan .sourceEnd "" c.point], t.kind ≠ .indent := by
    simp [Token.atSpan]
  refine ⟨by simp [tokensUpTo], h.wellFormed, hdedents, rfl, ?_, ?_, ?_, ?_⟩
  · simp only [blocksOpened_append, blocksClosed_append, hclosed, hopened,
      blocksOpened_eq_zero hend', blocksClosed_eq_zero hend]
    unfold openBlocks at hdepth
    omega
  · refine (h.closes.append ?_).append ?_
    · rw [hclosed]
      omega
    · rw [blocksClosed_eq_zero hend]
      exact Nat.zero_le _
  · rw [List.append_assoc, nesting_append h.nesting]
    refine nesting_layout fun t ht => ?_
    rcases List.mem_append.mp ht with ht | ht
    · rw [hdedents t ht]
      rfl
    · rw [List.mem_singleton.mp ht]
      rfl
  · simpa [marksUpTo] using h.indented.regular

end Lexer

theorem IsMargin.kind_ne_sourceEnd {margin : List Token} (h : IsMargin margin) :
    ∀ t ∈ margin, t.kind ≠ .sourceEnd := by
  intro t ht hkind
  rcases h with ⟨u, hu, hindent⟩ | hdedents
  · rw [hu, List.mem_singleton] at ht
    simp [ht, hindent] at hkind
  · simp [hdedents t ht] at hkind

private theorem kind_ne_sourceEnd_of_ordinary {body : List Token}
    (h : ∀ t ∈ body, t.kind.isLayout = false) : ∀ t ∈ body, t.kind ≠ .sourceEnd := by
  intro t ht hkind
  have hordinary := h t ht
  simp [hkind, TokenKind.isLayout] at hordinary

/-- Lines do not hold the end of the source. -/
theorem kind_ne_sourceEnd_of_lines {lines : List TokenLine} (h : ∀ l ∈ lines, l.WellFormed) :
    ∀ t ∈ lines.flatMap TokenLine.tokens, t.kind ≠ .sourceEnd := by
  intro t ht
  obtain ⟨l, hl, ht⟩ := List.mem_flatMap.mp ht
  have hwf := h l hl
  simp only [TokenLine.tokens, List.mem_append, List.mem_singleton] at ht
  rcases ht with (ht | ht) | rfl
  · exact hwf.margin.kind_ne_sourceEnd t ht
  · exact kind_ne_sourceEnd_of_ordinary hwf.body t ht
  · simp [hwf.ending]

/-- The end of the source stands only at the end of a complete layout. -/
theorem CompleteLayout.endsOnce {text : String} {lines : List TokenLine} {closing : List Token}
    {last : Token} {tokens : List Token} (h : CompleteLayout text lines closing last tokens) :
    EndsOnce tokens := by
  refine ⟨_, last, h.tokens_eq, h.sourceEnd, fun t ht => ?_⟩
  rcases List.mem_append.mp ht with ht | ht
  · exact kind_ne_sourceEnd_of_lines h.wellFormed t ht
  · simp [h.dedents t ht]

/-- A text with a fault has no end of the source among its tokens. -/
theorem kind_ne_sourceEnd_of_fault {text : String} (hfault : (tokensOf text).fault ≠ none) :
    ∀ t ∈ (tokensOf text).items, t.kind ≠ .sourceEnd := by
  refine Lexer.invariant_of_tokens (P := Lexer.LaidOut text)
    (Q := fun listing => listing.fault ≠ none → ∀ t ∈ listing.items, t.kind ≠ .sourceEnd)
    Lexer.LaidOut.step ?_ ?_ (Lexer.laidOut_ofText text) hfault
  · intro acc lx ts _ _ hfault
    exact absurd rfl hfault
  · rintro acc lx ts e ⟨lines, margin, body, bs, rfl, h⟩ hstep - t ht
    simp only [Lexer.tokensUpTo, List.mem_append] at ht
    rcases ht with ((ht | ht) | ht) | ht
    · exact kind_ne_sourceEnd_of_lines h.wellFormed t ht
    · exact h.isMargin.kind_ne_sourceEnd t ht
    · exact kind_ne_sourceEnd_of_ordinary h.ordinary t ht
    · obtain ⟨-, hkind | hkind | hkind⟩ := Lexer.step_fail hstep t ht <;> simp [hkind]

/-- Without a fault the tokens of a text have a complete layout. -/
theorem completeLayout_of_fault_eq_none {text : String} (hfault : (tokensOf text).fault = none) :
    ∃ lines closing last, CompleteLayout text lines closing last (tokensOf text).items := by
  refine Lexer.invariant_of_tokens (P := Lexer.LaidOut text)
    (Q := fun listing => listing.fault = none → ∃ lines closing last,
      CompleteLayout text lines closing last listing.items)
    Lexer.LaidOut.step ?_ ?_ (Lexer.laidOut_ofText text) hfault
  · intro acc lx ts hacc hstep _
    exact hacc.complete hstep
  · intro acc lx ts e _ _ hfault
    cases hfault

/-- The tokens of a text without faults are laid out in lines, with the source ended once. -/
theorem tokenize_completeLayout {text : String} {tokens : List Token}
    (h : tokenize text = .ok tokens) :
    EndsOnce tokens ∧ ∃ lines closing last, CompleteLayout text lines closing last tokens := by
  obtain ⟨hitems, hfault⟩ := Listing.eq_of_toExcept h
  obtain ⟨lines, closing, last, hlayout⟩ := completeLayout_of_fault_eq_none hfault
  rw [hitems] at hlayout
  exact ⟨hlayout.endsOnce, lines, closing, last, hlayout⟩

/-- A loop around a string with a hole, with a comment line before its body. -/
theorem completeLayout_of_loop :
    ∃ tokens, tokenize "while a\n\n  # b\n  << \"c\x7bd\x7d\"\ne = 1" = .ok tokens ∧
      tokens.length = 18 ∧ EndsOnce tokens ∧ ∃ lines closing last, CompleteLayout
        "while a\n\n  # b\n  << \"c\x7bd\x7d\"\ne = 1" lines closing last tokens := by
  have hlength : ((tokenize "while a\n\n  # b\n  << \"c\x7bd\x7d\"\ne = 1").toOption.map
      List.length) = some 18 := by decide +kernel
  cases h : tokenize "while a\n\n  # b\n  << \"c\x7bd\x7d\"\ne = 1" with
  | error e =>
    rw [h] at hlength
    cases hlength
  | ok tokens =>
    rw [h] at hlength
    exact ⟨tokens, rfl, Option.some.inj hlength, tokenize_completeLayout h⟩

end DialogScript
