import Mathlib.Data.List.Chain
import DialogScript.Proofs.Lexing.LineOrder
import DialogScript.Proofs.Lexing.Spans
import DialogScript.Proofs.Printing.Syntax

/-!
# Tokens as the lexer gives them

What trees rely on in the tokens that they are made of (`Lexed`). Every token has a place in the
source, with lines and columns that count from 1; a token that counts as a name is one, and no
reserved word; and a block that is opened has a token of its own before it is closed
(`lexed_tokensOf`).

The places of the line breaks in a block string are kept in the mode of the string until they are
given, so the invariant of a step is about the modes as well (`Lexer.Placed`).
-/

namespace DialogScript

/-- A span has a line and a column, which count from 1; that it ends behind its first column holds
of every span. -/
def Span.Placed (s : Span) : Prop := 1 ≤ s.line ∧ 1 ≤ s.initial

/-- A span stays placed when it grows. -/
theorem Span.Placed.join {s : Span} (h : s.Placed) (t : Span) : (s.join t).Placed :=
  ⟨s.join_line t ▸ h.1, s.join_initial t ▸ h.2⟩

/-- A token has a line and a column, and is a name if it counts as one. -/
structure Token.Grounded (t : Token) : Prop where
  line : 1 ≤ t.line
  initial : 1 ≤ t.initial
  name : t.kind = .name → isNameText t.text = true

namespace Token

private theorem grounded_atSpan {kind : TokenKind} {text : String} {s : Span} (hkind : kind ≠ .name)
    (h : s.Placed) : (atSpan kind text s).Grounded :=
  ⟨h.1, h.2, fun heq => absurd heq hkind⟩

private theorem grounded_breaks {spans : List Span} (h : ∀ s ∈ spans, s.Placed) :
    ∀ t ∈ spans.map (atSpan .text "\n"), t.Grounded :=
  List.forall_mem_map.mpr fun s hs => grounded_atSpan (by simp) (h s hs)

/-- A grounded token with columns is placed. -/
theorem Grounded.placed {t : Token} (h : t.Grounded) (hmade : t.WellMade) : t.extent.Placed := by
  rw [extent, dif_pos hmade.columns]
  exact ⟨h.line, h.initial⟩

end Token

/-- A cursor stands on a line and in a column, which count from 1. -/
structure Cursor.Placed (c : Cursor) : Prop where
  line : 1 ≤ c.line
  column : 1 ≤ c.column

namespace Cursor.Placed

variable {c d : Cursor}

/-- A cursor that is moved forward stays placed. -/
theorem reaches (h : c.Placed) (hreach : c.Reaches d) : d.Placed :=
  ⟨Nat.le_trans h.line hreach.line_le, hreach.one_le_column h.column⟩

/-- The place of a cursor is the span of a point. -/
theorem point (h : c.Placed) : c.point.Placed :=
  ⟨Int.ofNat_le.mpr h.line, Int.ofNat_le.mpr h.column⟩

/-- A token between two places is grounded if it is no name. -/
theorem tokenBetween (h : c.Placed) {kind : TokenKind} (hkind : kind ≠ .name) (text : List Char)
    (d : Cursor) : (Lexer.tokenBetween kind text c d).Grounded :=
  ⟨Int.ofNat_le.mpr h.line, Int.ofNat_le.mpr h.column, fun heq => absurd heq hkind⟩

/-- A fragment of a string is grounded. -/
theorem fragment (h : c.Placed) (text : List Char) (d : Cursor) :
    ∀ t ∈ Lexer.fragment text c d, t.Grounded := by
  unfold Lexer.fragment
  split
  · exact List.forall_mem_nil _
  · exact List.forall_mem_singleton.mpr (h.tokenBetween (by simp) _ _)

end Cursor.Placed

namespace Lexer

variable {lx next : Lexer} {ts before : List Token}

/-! ### Names -/
/-- A word that is no keyword is the text of a name. -/

private theorem isNameText_word {c : Cursor} {ch : Char} {rest : List Char}
    (hrest : c.rest = ch :: rest)
    (hch : Cursor.startsName ch = true) (hkind : (word c).1.kind = .name) :
    isNameText (word c).1.text = true := by
  have hcontinues : Cursor.continuesName ch = true := by
    simp only [Cursor.startsName, Bool.or_eq_true] at hch
    simp only [Cursor.continuesName, Bool.or_eq_true]
    exact hch.elim (fun h => .inl (.inl h)) .inr
  have htext : (c.takeWhile Cursor.continuesName).1
      = ch :: rest.takeWhile Cursor.continuesName := by
    simp [Cursor.takeWhile, hrest, hcontinues]
  simp only [word, htext, tokenBetween] at hkind ⊢
  split at hkind
  · cases hkind
  · rename_i hfree
    simp only [isNameText, String.toList_ofList, hfree, hch, Option.isNone_none, Bool.true_and,
      Bool.and_true]
    exact List.all_takeWhile

/-- A number is no name. -/
private theorem kind_number {c d : Cursor} {t : Token} (h : number c = .ok (t, d)) :
    t.kind ≠ .name := by
  simp only [number] at h
  split at h
  · split at h
    · cases h
    · obtain ⟨rfl, -⟩ := Prod.mk.inj (Except.ok.inj h)
      simp
  · obtain ⟨rfl, -⟩ := Prod.mk.inj (Except.ok.inj h)
    simp

/-- Of all that is read in code only a word counts as a name. -/
theorem code_names (h : lx.code = .ok (ts, next)) :
    ∀ t ∈ ts, t.kind = .name → isNameText t.text = true := by
  intro t ht hkind
  simp only [code] at h
  split at h
  · obtain ⟨rfl, -⟩ := Prod.mk.inj (Except.ok.inj h)
    cases ht
  rename_i ch rest hrest
  split at h
  · split at h
    · cases h
    · split at h <;> obtain ⟨rfl, -⟩ := Prod.mk.inj (Except.ok.inj h)
      · rw [List.mem_singleton.mp ht] at hkind
        cases hkind
      · cases ht
  split at h
  · split at h
    · rename_i hnumber
      obtain ⟨rfl, -⟩ := Prod.mk.inj (Except.ok.inj h)
      exact absurd (List.mem_singleton.mp ht ▸ hkind) (kind_number hnumber)
    · cases h
  split at h
  · rename_i hname
    obtain ⟨rfl, -⟩ := Prod.mk.inj (Except.ok.inj h)
    obtain rfl := List.mem_singleton.mp ht
    exact isNameText_word hrest hname hkind
  split at h
  · simp only [openString] at h
    split at h
    · split at h
      · cases h
      · obtain ⟨rfl, -⟩ := Prod.mk.inj (Except.ok.inj h)
        rw [List.mem_singleton.mp ht] at hkind
        cases hkind
    · split at h <;> obtain ⟨rfl, -⟩ := Prod.mk.inj (Except.ok.inj h) <;>
        rw [List.mem_singleton.mp ht] at hkind <;> cases hkind
  split at h
  · obtain ⟨rfl, -⟩ := Prod.mk.inj (Except.ok.inj h)
    rw [List.mem_singleton.mp ht] at hkind
    cases hkind
  · split at h
    · obtain ⟨rfl, -⟩ := Prod.mk.inj (Except.ok.inj h)
      rw [List.mem_singleton.mp ht] at hkind
      cases hkind
    · cases h

/-! ### Places -/

/-- A lexer whose cursor and whose waiting line breaks have places. -/
structure Placed (lx : Lexer) : Prop where
  cursor : lx.cursor.Placed
  waiting : ∀ m ∈ lx.modes, ∀ s ∈ m.waiting, s.Placed

/-- What is read from code is grounded. -/
theorem Placed.code (h : lx.Placed) (hcode : lx.code = .ok (ts, next)) :
    (∀ t ∈ ts, t.Grounded) ∧ next.Placed := by
  have hmove := code_cases hcode
  have hnames := code_names hcode
  have hcursor := h.cursor.reaches hmove.reaches
  have hblank := h.cursor.reaches (reaches_skipBlanks lx.cursor)
  cases hmove with
  | blank => exact ⟨List.forall_mem_nil _, hcursor, h.waiting⟩
  | lineEnd =>
    exact ⟨List.forall_mem_singleton.mpr (Token.grounded_atSpan (by simp) hblank.point), hcursor,
      h.waiting⟩
  | token _ hreads =>
    refine ⟨List.forall_mem_singleton.mpr ⟨?_, ?_, hnames _ (by simp)⟩, hcursor, h.waiting⟩
    · rw [hreads.line]
      exact Int.ofNat_le.mpr hblank.line
    · rw [hreads.initial]
      exact Int.ofNat_le.mpr hblank.column
  | openLine =>
    exact ⟨List.forall_mem_singleton.mpr (hblank.tokenBetween (by simp) _ _), hcursor,
      List.forall_mem_cons.mpr ⟨List.forall_mem_nil _, h.waiting⟩⟩
  | openBlock _ _ _ hpending =>
    refine ⟨List.forall_mem_singleton.mpr (hblank.tokenBetween (by simp) _ _), hcursor,
      List.forall_mem_cons.mpr ⟨?_, h.waiting⟩⟩
    rw [Mode.waiting, hpending]
    exact List.forall_mem_nil _
  | closeHole =>
    exact ⟨List.forall_mem_singleton.mpr (Token.grounded_atSpan (by simp) hblank.point), hcursor,
      fun m hm => h.waiting m (List.mem_of_mem_tail hm)⟩

/-- A step in code gives grounded tokens behind those of the margin. -/
theorem Placed.codeStep (h : lx.Placed) (hbefore : ∀ t ∈ before, t.Grounded)
    (hstep : Lexer.codeStep lx before = .more ts next) :
    (∀ t ∈ ts, t.Grounded) ∧ next.Placed := by
  unfold Lexer.codeStep at hstep
  split at hstep
  · obtain ⟨own, last, hcode, rfl, rfl⟩ := eq_of_stepTo hstep
    obtain ⟨hown, hlast⟩ := h.code hcode
    exact ⟨List.forall_mem_append.mpr ⟨hbefore, hown⟩, hlast.cursor, hlast.waiting⟩
  · unfold finish at hstep
    split at hstep <;> cases hstep

/-- The tokens of a margin are grounded. -/
theorem Placed.margin (h : lx.Placed) (hmargin : Margin lx ts next) :
    (∀ t ∈ ts, t.Grounded) ∧ next.Placed := by
  have hcursor := h.cursor.reaches hmargin.reaches
  have hline : 1 ≤ (next.cursor.line : Int) := Int.ofNat_le.mpr hcursor.line
  cases hmargin with
  | wider =>
    refine ⟨List.forall_mem_singleton.mpr ⟨hline, ?_, by simp⟩, hcursor, h.waiting⟩
    dsimp only
    omega
  | narrower =>
    refine ⟨List.forall_mem_map.mpr fun _ _ => Token.grounded_atSpan (by simp) ⟨hline, ?_⟩, hcursor,
      h.waiting⟩
    simp only [Span.point]
    omega

/-- What is read from a string of one line is grounded. -/
theorem Placed.lineString (h : lx.Placed) (hstring : lx.lineString = .ok (ts, next)) :
    (∀ t ∈ ts, t.Grounded) ∧ next.Placed := by
  simp only [Lexer.lineString] at hstring
  split at hstring
  · cases hstring
  rename_i text c hcontent
  obtain ⟨raw, hpasses, -⟩ := readContent_passes hcontent
  have hc := h.cursor.reaches (.of_passes hpasses)
  have hfragment := h.cursor.fragment text c
  split at hstring
  · rename_i rest hrest
    obtain ⟨rfl, rfl⟩ := Prod.mk.inj (Except.ok.inj hstring)
    refine ⟨List.forall_mem_append.mpr ⟨hfragment, List.forall_mem_singleton.mpr
      (Token.grounded_atSpan (by simp) hc.point)⟩, ?_, ?_⟩
    · exact hc.reaches (.of_passes (Cursor.passes_one hrest (by decide)))
    · exact List.forall_mem_cons.mpr ⟨List.forall_mem_nil _, h.waiting⟩
  · rename_i rest hrest
    obtain ⟨rfl, rfl⟩ := Prod.mk.inj (Except.ok.inj hstring)
    refine ⟨List.forall_mem_append.mpr ⟨hfragment, List.forall_mem_singleton.mpr
      (Token.grounded_atSpan (by simp) hc.point)⟩, ?_, ?_⟩
    · exact hc.reaches (.of_passes (Cursor.passes_one hrest (by decide)))
    · exact fun m hm => h.waiting m (List.mem_of_mem_tail hm)
  · cases hstring

/-- The line breaks before a line of a block string have places, and so has the one that waits. -/
theorem placed_blockIndentation {string string' : BlockString} {c d : Cursor} (hc : c.Placed)
    (hpending : ∀ s ∈ string.pending.toList, s.Placed)
    (h : blockIndentation string c = (ts, .ok (string', d))) :
    (∀ t ∈ ts, t.Grounded) ∧ d.Placed ∧ ∀ s ∈ string'.pending.toList, s.Placed := by
  have hd := hc.reaches (blockIndentation_cases h).2
  unfold blockIndentation at h
  split at h
  · cases (Prod.mk.inj h).2
  rename_i level e hread
  have hbreaks : ∀ s ∈ string.pending.toList ++ lineStarts c.line (e.line - c.line), s.Placed := by
    refine List.forall_mem_append.mpr ⟨hpending, fun s hs => ?_⟩
    obtain ⟨i, -, rfl⟩ := Accounted.mem_lineStarts hs
    have := hc.line
    simp only [Span.Placed, Span.point]
    omega
  dsimp only at h
  split at h
  · cases (Prod.mk.inj h).2
  obtain ⟨rfl, hok⟩ := Prod.mk.inj h
  obtain ⟨rfl, rfl⟩ := Prod.mk.inj (Except.ok.inj hok)
  refine ⟨Token.grounded_breaks fun s hs => hbreaks s (List.dropLast_subset _ hs), hd, ?_⟩
  intro s hs
  exact hbreaks s (List.mem_of_getLast? (Option.mem_toList.mp hs))

/-- The content of a block string is grounded, with the breaks that waited in front of it. -/
theorem Placed.blockContent {string : BlockString} {c : Cursor}
    (hwaiting : ∀ m ∈ lx.modes.tail, ∀ s ∈ m.waiting, s.Placed) (hc : c.Placed)
    (hpending : ∀ s ∈ string.pending.toList, s.Placed)
    (hstring : lx.blockContent string c = .ok (ts, next)) :
    (∀ t ∈ ts, t.Grounded) ∧ next.Placed := by
  simp only [Lexer.blockContent] at hstring
  split at hstring
  · cases hstring
  rename_i text d hcontent
  obtain ⟨raw, hpasses, -⟩ := readContent_passes hcontent
  have hd := hc.reaches (.of_passes hpasses)
  have htexts : ∀ t ∈ lineBreak string.pending ++ fragment text c d, t.Grounded :=
    List.forall_mem_append.mpr ⟨Token.grounded_breaks hpending, hc.fragment text d⟩
  split at hstring
  · cases hstring
  · rename_i rest hrest
    obtain ⟨rfl, rfl⟩ := Prod.mk.inj (Except.ok.inj hstring)
    refine ⟨List.forall_mem_append.mpr ⟨htexts, List.forall_mem_singleton.mpr
      (Token.grounded_atSpan (by simp) hd.point)⟩, ?_, ?_⟩
    · exact hd.reaches (.of_passes (Cursor.passes_one hrest (by decide)))
    · exact List.forall_mem_cons.mpr ⟨List.forall_mem_nil _,
        List.forall_mem_cons.mpr ⟨List.forall_mem_nil _, hwaiting⟩⟩
  · rename_i rest hrest
    obtain ⟨rfl, rfl⟩ := Prod.mk.inj (Except.ok.inj hstring)
    have hquotes := passes_quotes (startsWithQuotes_of_readContent hcontent hrest)
    refine ⟨List.forall_mem_append.mpr ⟨?_, List.forall_mem_singleton.mpr
      (hd.tokenBetween (by simp) _ _)⟩, hd.reaches (.of_passes hquotes), hwaiting⟩
    split
    · exact List.forall_mem_nil _
    · exact htexts
  · split at hstring
    · rename_i hread
      obtain ⟨rfl, rfl⟩ := Prod.mk.inj (Except.ok.inj hstring)
      refine ⟨htexts, hd.reaches (.of_read? hread), List.forall_mem_cons.mpr ⟨?_, hwaiting⟩⟩
      exact List.forall_mem_singleton.mpr hd.point
    · cases hstring

/-- What is read from a block string is grounded. -/
theorem Placed.blockString {string : BlockString} (h : lx.Placed)
    (hmode : lx.mode = .blockString string)
    (hstring : lx.blockString string = (before, .ok (ts, next))) :
    (∀ t ∈ before ++ ts, t.Grounded) ∧ next.Placed := by
  have hmodes := modes_eq_of_mode hmode (by simp)
  have hwaiting := h.waiting
  rw [hmodes, List.forall_mem_cons] at hwaiting
  obtain ⟨hpending, hbelow⟩ := hwaiting
  unfold Lexer.blockString at hstring
  split at hstring
  · split at hstring
    · cases (Prod.mk.inj hstring).2
    · rename_i hindent
      obtain ⟨rfl, hok⟩ := Prod.mk.inj hstring
      obtain ⟨hbreaks, hc, hlast⟩ := placed_blockIndentation h.cursor hpending hindent
      obtain ⟨hts, hnext⟩ := Placed.blockContent hbelow hc hlast hok
      exact ⟨List.forall_mem_append.mpr ⟨hbreaks, hts⟩, hnext⟩
  · obtain ⟨rfl, hok⟩ := Prod.mk.inj hstring
    exact Placed.blockContent hbelow h.cursor hpending hok

/-- Every step gives tokens with places, and names that are names. -/
theorem Placed.step (h : lx.Placed) (hstep : lx.step = .more ts next) :
    (∀ t ∈ ts, t.Grounded) ∧ next.Placed := by
  unfold Lexer.step at hstep
  split at hstep
  · obtain ⟨own, last, hstring, rfl, rfl⟩ := eq_of_stepTo hstep
    obtain ⟨hown, hlast⟩ := h.lineString hstring
    exact ⟨hown, hlast.cursor, hlast.waiting⟩
  · rename_i string hmode
    obtain ⟨own, last, hstring, rfl, rfl⟩ := eq_of_stepTo hstep
    obtain ⟨hown, hlast⟩ := h.blockString hmode (Prod.ext rfl hstring)
    exact ⟨hown, hlast.cursor, hlast.waiting⟩
  · exact h.codeStep (List.forall_mem_nil _) hstep
  · split at hstep
    · split at hstep
      · rename_i margin start hindent
        rcases lineIndentation_cases hindent with hmargin | ⟨level, c, hread, -, rfl, rfl⟩
        · obtain ⟨hbefore, hstart⟩ := h.margin hmargin
          exact hstart.codeStep hbefore hstep
        · have hc := h.cursor.reaches (Cursor.readIndent_reaches hread)
          have hstart : (lx.moveTo c).Placed := ⟨hc, h.waiting⟩
          exact hstart.codeStep (List.forall_mem_nil _) hstep
      · cases hstep
    · exact h.codeStep (List.forall_mem_nil _) hstep

end Lexer

/-- All tokens of a text are grounded if it has no syntax error. -/
private theorem grounded_of_fault_eq_none {text : String} (hfault : (tokensOf text).fault = none) :
    ∀ t ∈ (tokensOf text).items, t.Grounded := by
  refine Lexer.invariant_of_tokens (P := fun acc lx => (∀ t ∈ acc, t.Grounded) ∧ lx.Placed)
    (Q := fun listing => listing.fault = none → ∀ t ∈ listing.items, t.Grounded)
    ?_ ?_ ?_ ?_ hfault
  · rintro acc lx ts next ⟨hacc, hlx⟩ hstep
    obtain ⟨hts, hnext⟩ := hlx.step hstep
    exact ⟨List.forall_mem_append.mpr ⟨hacc, hts⟩, hnext⟩
  · rintro acc lx ts ⟨hacc, hlx⟩ hstep -
    obtain ⟨-, c, hending, rfl⟩ := Lexer.step_done hstep
    have hpoint := (hlx.cursor.reaches hending.reaches).point
    refine List.forall_mem_append.mpr ⟨hacc, List.forall_mem_append.mpr
      ⟨List.forall_mem_append.mpr ⟨?_, ?_⟩, List.forall_mem_singleton.mpr ?_⟩⟩
    · split
      · exact List.forall_mem_singleton.mpr (Token.grounded_atSpan (by simp) hpoint)
      · exact List.forall_mem_nil _
    · exact List.forall_mem_map.mpr fun _ _ => Token.grounded_atSpan (by simp) hpoint
    · exact Token.grounded_atSpan (by simp) hpoint
  · intro acc lx ts e _ _ h
    cases h
  · exact ⟨List.forall_mem_nil _, ⟨Nat.le_refl 1, Nat.le_refl 1⟩,
      List.forall_mem_singleton.mpr (List.forall_mem_nil _)⟩

/-! ### Blocks -/

/-- A token after the opening of a block is one of a line, not of the layout. -/
def Token.Opens (a b : Token) : Prop := a.kind = .indent → b.kind.isLayout = false

private theorem Token.opens_of_ne {a : Token} (h : a.kind ≠ .indent) (b : Token) : a.Opens b :=
  fun heq => absurd heq h

private theorem isChain_opens_of_ne {ts : List Token} (h : ∀ t ∈ ts, t.kind ≠ .indent) :
    ts.IsChain Token.Opens :=
  (List.pairwise_of_forall_mem_list fun a ha b _ => Token.opens_of_ne (h a ha) b).isChain

/-- In a line only the margin opens a block, and tokens of the line's own follow it. -/
theorem TokenLine.WellFormed.isChain_opens {l : TokenLine} (h : l.WellFormed) :
    l.tokens.IsChain Token.Opens := by
  have hrest : ∀ t ∈ l.body ++ [l.ending], t.kind ≠ .indent := by
    refine List.forall_mem_append.mpr ⟨fun t ht hkind => ?_, ?_⟩
    · have hordinary := h.body t ht
      rw [hkind] at hordinary
      cases hordinary
    · simp [h.ending]
  rw [TokenLine.tokens, List.append_assoc]
  rcases h.margin with ⟨o, hmargin, -⟩ | hdedents
  · rw [hmargin, List.singleton_append]
    refine (isChain_opens_of_ne hrest).cons fun t ht _ => ?_
    -- The line is not empty, so its first token comes after the margin.
    obtain ⟨first, body, hbody⟩ := List.exists_cons_of_ne_nil h.nonempty
    obtain rfl : first = t := by simpa [hbody] using ht
    exact h.body first (by simp [hbody])
  · refine isChain_opens_of_ne (List.forall_mem_append.mpr ⟨fun t ht => ?_, hrest⟩)
    simp [hdedents t ht]

/-- Between the lines of a text nothing opens a block but what the next line starts with. -/
private theorem isChain_opens_lines {lines : List TokenLine} (h : ∀ l ∈ lines, l.WellFormed)
    {rest : List Token} (hrest : rest.IsChain Token.Opens) :
    (lines.flatMap TokenLine.tokens ++ rest).IsChain Token.Opens := by
  induction lines with
  | nil => exact hrest
  | cons l lines ih =>
    obtain ⟨hl, hlines⟩ := List.forall_mem_cons.mp h
    rw [List.flatMap_cons, List.append_assoc]
    refine hl.isChain_opens.append (ih hlines) fun t ht u _ => Token.opens_of_ne ?_ u
    obtain rfl : l.ending = t := by simpa [TokenLine.tokens] using ht
    simp [hl.ending]

/-- In a text with a complete layout a block is opened only in front of a line. -/
private theorem CompleteLayout.isChain_opens {text : String} {lines : List TokenLine}
    {closing tokens : List Token} {last : Token}
    (h : CompleteLayout text lines closing last tokens) : tokens.IsChain Token.Opens := by
  rw [h.tokens_eq, List.append_assoc]
  refine isChain_opens_lines h.wellFormed (isChain_opens_of_ne ?_)
  refine List.forall_mem_append.mpr ⟨fun t ht => ?_, List.forall_mem_singleton.mpr ?_⟩
  · simp [h.dedents t ht]
  · simp [h.sourceEnd]

/-! ### Parts of a listing -/

/-- Some tokens in a row that the lexer gives. -/
structure Lexed (ts : List Token) : Prop extends Scanned ts where
  grounded : ∀ t ∈ ts, t.Grounded
  opens : ts.IsChain Token.Opens

/-- Part of some tokens that the lexer gives. -/
theorem Lexed.part {ts us : List Token} (h : Lexed us) (before after : List Token)
    (hus : us = before ++ ts ++ after) : Lexed ts where
  toScanned := h.toScanned.part before after hus
  grounded := fun t ht => h.grounded t (by simp [hus, ht])
  opens := h.opens.infix ⟨before, after, hus.symm⟩

/-- The tokens that the lexer gives have placed extents. -/
theorem Lexed.extent_placed {ts : List Token} (h : Lexed ts) {t : Token} (ht : t ∈ ts) :
    t.extent.Placed :=
  (h.grounded t ht).placed (h.made t ht)

/-- The tokens of a text without syntax errors of its parts are such tokens. -/
theorem lexed_tokensOf {text : String} (hfault : (tokensOf text).fault = none) :
    Lexed (tokensOf text).items := by
  obtain ⟨lines, closing, last, hlayout⟩ := completeLayout_of_fault_eq_none hfault
  exact ⟨scanned_tokensOf text, grounded_of_fault_eq_none hfault, hlayout.isChain_opens⟩

end DialogScript
