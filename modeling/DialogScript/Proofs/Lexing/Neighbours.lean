import DialogScript.Proofs.Lexing.Spans
import Mathlib.Data.List.Chain

/-!
# Neighbouring tokens

Outside strings a line break ends the line, so two neighbouring tokens of a line's own stand on
the same line (`Token.Beside`). Only within a string of many lines can the text go on below. With
the order in which the tokens of a text stand this says on which line every token of a header is
(`inRows_tokensOf`), whether or not the lexer comes to a fault further below.
-/

namespace DialogScript

open Lexer

/-- Whether tokens of a kind are the quotes, the texts and the holes of strings. -/
def TokenKind.isOfString : TokenKind → Bool
  | .text => true
  | .stringStart => true
  | .stringEnd => true
  | .holeStart => true
  | .holeEnd => true
  | _ => false

/-- Two neighbours of a line's own are on the same line, unless a string goes on from one to the
other. -/
def Token.Beside (a b : Token) : Prop :=
  a.kind.isLayout = false → b.kind.isLayout = false →
    a.line = b.line ∨ a.kind.isOfString = true ∧ b.kind.isOfString = true

/-- Tokens of which the lines' own stand in order, and neighbours on the same line. -/
structure InRows (ts : List Token) : Prop where
  ordered : (ownTokens ts).Pairwise fun a b => a.EndsBy b.line b.initial
  beside : ts.IsChain Token.Beside

private theorem isChain_beside_of_layout {ts : List Token} (h : ∀ t ∈ ts, t.kind.isLayout = true) :
    ts.IsChain Token.Beside := by
  refine (List.pairwise_of_forall_mem_list fun a ha b _ => ?_).isChain
  intro hown
  rw [h a ha] at hown
  cases hown

private theorem isChain_beside_of_string {ts : List Token}
    (h : ∀ t ∈ ts, t.kind.isOfString = true) :
    ts.IsChain Token.Beside :=
  (List.pairwise_of_forall_mem_list fun a ha b hb _ _ => .inr ⟨h a ha, h b hb⟩).isChain

namespace Lexer

variable {text : String} {acc ts : List Token} {lx next : Lexer} {t : Token}

/-- Where the last token is: in a string it belongs to the string, and elsewhere it is on the
line of the cursor or ends that line. -/
structure LastBy (t : Token) (lx : Lexer) : Prop where
  inString : lx.mode.isString = true → t.kind.isOfString = true
  onLine : lx.mode.isString = false → t.kind.isLayout = false → t.line = lx.cursor.line

/-- The tokens read so far are beside each other, and the last one is by the cursor. -/
structure Aligned (acc : List Token) (lx : Lexer) : Prop where
  beside : acc.IsChain Token.Beside
  last : ∀ t ∈ acc.getLast?, LastBy t lx

/-- More tokens in code, on the line of the cursor. -/
theorem Aligned.own (h : Aligned acc lx) (hmode : lx.mode.isString = false)
    (ht : t.line = lx.cursor.line) (hlast : LastBy t next) : Aligned (acc ++ [t]) next := by
  refine ⟨h.beside.append (List.isChain_singleton t) fun a ha b hb => ?_, fun u hu => ?_⟩
  · obtain rfl : t = b := by simpa using hb
    exact fun hown _ => .inl (((h.last a ha).onLine hmode hown).trans ht.symm)
  · obtain rfl : t = u := by simpa using hu
    exact hlast

private theorem isChain_append_layout (h : acc.IsChain Token.Beside)
    (hts : ∀ t ∈ ts, t.kind.isLayout = true) :
    (acc ++ ts).IsChain Token.Beside := by
  refine h.append (isChain_beside_of_layout hts) fun a _ b hb _ hown => ?_
  rw [hts b (List.mem_of_head? hb)] at hown
  cases hown

theorem Aligned.codeMove (h : Aligned acc lx) (hmode : lx.mode.isString = false)
    (hmove : CodeMove lx ts next) : Aligned (acc ++ ts) next := by
  have hblank := (Cursor.passes_skipBlanks lx.cursor).line
  cases hmove with
  | blank =>
    rw [List.append_nil]
    refine ⟨h.beside, fun t ht => ⟨fun hstring => ?_, fun _ hown => ?_⟩⟩
    · rw [show (lx.moveTo lx.cursor.skipBlanks).mode = lx.mode from rfl, hmode] at hstring
      cases hstring
    · rw [(h.last t ht).onLine hmode hown, ← hblank]
      rfl
  | lineEnd =>
    refine h.own hmode (congrArg Int.ofNat hblank) ⟨fun hstring => ?_, fun _ hown => ?_⟩
    · exact absurd (hmode.symm.trans hstring) (by decide)
    · cases hown
  | token _ hreads =>
    obtain ⟨_, hpasses, -⟩ := hreads.passes
    have hline := hreads.line.trans (congrArg Int.ofNat hblank)
    refine h.own hmode hline ⟨fun hstring => ?_, fun _ _ => ?_⟩
    · exact absurd (hmode.symm.trans hstring) (by decide)
    · exact hreads.line.trans (congrArg Int.ofNat hpasses.line.symm)
  | openLine hpasses =>
    exact h.own hmode (congrArg Int.ofNat hblank) ⟨fun _ => rfl, fun hcode => by cases hcode⟩
  | openBlock hpasses =>
    exact h.own hmode (congrArg Int.ofNat hblank) ⟨fun _ => rfl, fun hcode => by cases hcode⟩
  | closeHole _ hpasses =>
    exact h.own hmode (congrArg Int.ofNat hblank)
      ⟨fun _ => rfl, fun _ _ => congrArg Int.ofNat hpasses.line.symm⟩

theorem Margin.mode_eq (h : Margin lx ts next) : next.mode = lx.mode := by
  cases h <;> rfl

/-- The indentation of a line comes after the end of another one. -/
theorem Aligned.margin (h : Aligned acc lx) (htracked : Tracked text (ownTokens acc) lx)
    (hmode : lx.mode = .code) (hcolumn : lx.cursor.column = 1) (hmargin : Margin lx ts next) :
    Aligned (acc ++ ts) next := by
  have hstring : lx.mode.isString = false := by rw [hmode]; rfl
  have hlayout : ∀ t ∈ ts, t.kind.isLayout = true := fun t ht => by
    rcases hmargin.kinds t ht with hkind | hkind <;> rw [hkind] <;> rfl
  refine ⟨isChain_append_layout h.beside hlayout, fun t ht =>
    ⟨fun hin => ?_, fun _ hown => ?_⟩⟩
  · rw [hmargin.mode_eq, hstring] at hin
    cases hin
  · -- A token of a line's own ends past the first column of its line.
    have hmem := List.mem_of_getLast? ht
    have hacc : acc.getLast? = some t := by
      cases hts : ts.getLast? with
      | none => simpa [List.getLast?_append, hts] using ht
      | some u =>
        obtain rfl : u = t := by simpa [List.getLast?_append, hts] using ht
        rw [hlayout u (List.mem_of_getLast? hts)] at hown
        cases hown
    have hown' : t ∈ ownTokens acc :=
      List.mem_filter.mpr ⟨List.mem_of_getLast? hacc, by simp [hown]⟩
    have hline := (h.last t hacc).onLine hstring hown
    have habove := htracked.accounted.above t hown'
    have hcolumns := htracked.accounted.columns t hown'
    unfold Token.EndsBy at habove
    omega

theorem StringMove.isOfString (h : StringMove lx ts next) :
    ∀ t ∈ ts, t.kind.isOfString = true := by
  have htext : ∀ {us : List Token}, AreTexts us → ∀ t ∈ us, t.kind.isOfString = true :=
    fun htexts t ht => by rw [(htexts t ht).1]; rfl
  intro t ht
  cases h with
  | hole htexts =>
    rcases List.mem_append.mp ht with ht | ht
    · exact htext htexts t ht
    · rw [List.mem_singleton.mp ht]
      rfl
  | close htexts _ _ _ hkind =>
    rcases List.mem_append.mp ht with ht | ht
    · exact htext htexts t ht
    · rw [List.mem_singleton.mp ht, hkind]
      rfl
  | lineBreak htexts => exact htext htexts t ht

/-- A string on one line ends on the line that the lexer comes to. -/
theorem lineString_stringEnd (h : lx.lineString = .ok (ts, next)) :
    ∀ t ∈ ts.getLast?, t.kind = .stringEnd → t.line = next.cursor.line := by
  intro t ht hkind
  simp only [lineString] at h
  split at h
  · cases h
  split at h
  · obtain ⟨rfl, rfl⟩ := Prod.mk.inj (Except.ok.inj h)
    obtain rfl : _ = t := by simpa using ht
    cases hkind
  · obtain ⟨rfl, rfl⟩ := Prod.mk.inj (Except.ok.inj h)
    obtain rfl : _ = t := by simpa using ht
    rfl
  · cases h

private theorem blockContent_stringEnd {string : BlockString} {c : Cursor}
    (h : lx.blockContent string c = .ok (ts, next)) :
    ∀ t ∈ ts.getLast?, t.kind = .stringEnd → t.line = next.cursor.line := by
  intro t ht hkind
  simp only [blockContent] at h
  split at h
  · cases h
  rename_i content d hcontent
  split at h
  · cases h
  · obtain ⟨rfl, rfl⟩ := Prod.mk.inj (Except.ok.inj h)
    obtain rfl : _ = t := by simpa using ht
    cases hkind
  · obtain ⟨rfl, rfl⟩ := Prod.mk.inj (Except.ok.inj h)
    obtain rfl : _ = t := by simpa using ht
    rfl
  · split at h
    · -- A line of the string ends, after texts.
      obtain ⟨rfl, rfl⟩ := Prod.mk.inj (Except.ok.inj h)
      obtain ⟨raw, hraw, htext⟩ := readContent_passes hcontent
      rcases List.mem_append.mp (List.mem_of_getLast? ht) with hmem | hmem
      · rw [(areTexts_atSpan _ t hmem).1] at hkind
        cases hkind
      · rw [(mem_fragment hraw htext hmem).1] at hkind
        cases hkind
    · cases h

/-- A string of many lines ends on the line that the lexer comes to. -/
theorem blockString_stringEnd {string : BlockString} {before : List Token}
    (h : lx.blockString string = (before, .ok (ts, next))) :
    ∀ t ∈ (before ++ ts).getLast?, t.kind = .stringEnd → t.line = next.cursor.line := by
  have hbefore := (congrArg Prod.fst h) ▸ blockString_texts string lx
  have hts : ∀ t ∈ ts.getLast?, t.kind = .stringEnd → t.line = next.cursor.line := by
    unfold blockString at h
    split at h
    · split at h
      · cases (Prod.mk.inj h).2
      · exact blockContent_stringEnd (Prod.mk.inj h).2
    · exact blockContent_stringEnd (Prod.mk.inj h).2
  intro t ht hkind
  cases hlast : ts.getLast? with
  | none =>
    rw [List.getLast?_eq_none_iff.mp hlast, List.append_nil] at ht
    rw [(hbefore t (List.mem_of_getLast? ht)).1] at hkind
    cases hkind
  | some u =>
    obtain rfl : u = t := by simpa [List.getLast?_append, hlast] using ht
    exact hts u hlast hkind

/-- Where a step ends a string, it does so on the line that the lexer comes to. -/
theorem stringEnd_line (hmode : lx.mode.isString = true) (hstep : lx.step = .more ts next) :
    ∀ t ∈ ts.getLast?, t.kind = .stringEnd → t.line = next.cursor.line := by
  rw [step] at hstep
  cases hm : lx.mode with
  | lineString =>
    rw [hm] at hstep
    obtain ⟨own, last, hstring, rfl, rfl⟩ := eq_of_stepTo hstep
    have hends := lineString_stringEnd hstring
    exact hends
  | blockString string =>
    rw [hm] at hstep
    cases hstring : lx.blockString string with
    | mk before result =>
      simp only [hstring] at hstep
      obtain ⟨own, last, rfl, rfl, rfl⟩ := eq_of_stepTo hstep
      have hends := blockString_stringEnd hstring
      exact hends
  | code | hole =>
    rw [hm] at hmode
    cases hmode

theorem Aligned.stringMove (h : Aligned acc lx) (hmode : lx.mode.isString = true)
    (hmove : StringMove lx ts next)
    (hends : ∀ t ∈ ts.getLast?, t.kind = .stringEnd → t.line = next.cursor.line) :
    Aligned (acc ++ ts) next := by
  have hts := hmove.isOfString
  have hacc : ∀ t ∈ acc.getLast?, t.kind.isOfString = true :=
    fun t ht => (h.last t ht).inString hmode
  refine ⟨h.beside.append (isChain_beside_of_string hts) fun a ha b hb _ _ =>
    .inr ⟨hacc a ha, hts b (List.mem_of_head? hb)⟩, fun t ht => ⟨fun _ => ?_, fun hcode _ => ?_⟩⟩
  · rcases hlast : ts.getLast? with _ | u
    · exact hacc t (by simpa [List.getLast?_append, hlast] using ht)
    · obtain rfl : u = t := by simpa [List.getLast?_append, hlast] using ht
      exact hts u (List.mem_of_getLast? hlast)
  · -- Only a hole and the end of the string lead out of it.
    cases hmove with
    | hole _ _ hpasses =>
      obtain rfl : _ = t := by simpa using ht
      exact congrArg Int.ofNat hpasses.line.symm
    | close _ _ _ _ hkind =>
      obtain rfl : _ = t := by simpa using ht
      exact hends _ (by simp) hkind
    | lineBreak _ _ htop => exact absurd (hcode.symm.trans htop) (by decide)

/-- Every step keeps the tokens beside each other. -/
theorem Aligned.step (h : Aligned acc lx) (htracked : Tracked text (ownTokens acc) lx)
    (hstep : lx.step = .more ts next) : Aligned (acc ++ ts) next := by
  obtain ⟨last, hmove, rfl⟩ := step_more hstep
  have hmoved : Aligned (acc ++ ts) last := by
    cases hmove with
    | string hmode hmove =>
      have hends := stringEnd_line hmode hstep
      exact h.stringMove hmode hmove hends
    | inside hmode hmove =>
      refine h.codeMove ?_ hmove
      rcases hmode with hmode | ⟨hmode, -⟩ <;> rw [hmode] <;> rfl
    | line hmode hcolumn hmargin hmove =>
      rw [← List.append_assoc]
      refine (h.margin htracked hmode hcolumn hmargin).codeMove ?_ hmove
      rw [hmargin.mode_eq, hmode]
      rfl
  exact ⟨hmoved.beside, fun t ht => ⟨(hmoved.last t ht).inString, (hmoved.last t ht).onLine⟩⟩

/-- The tokens of a text up to any end of a line are in rows. What comes up behind them with a
fault ends no line. -/
theorem rows_tokens (text : String) : ∃ before after,
    (tokensOf text).items = before ++ after ∧ InRows before ∧ ∀ t ∈ after, t.kind ≠ .lineEnd := by
  refine invariant_of_tokens
    (P := fun acc lx => Tracked text (ownTokens acc) lx ∧ Aligned acc lx)
    (Q := fun listing => ∃ before after, listing.items = before ++ after ∧ InRows before ∧
      ∀ t ∈ after, t.kind ≠ .lineEnd) ?_ ?_ ?_
    ⟨.of_settled (.ofText text) (List.forall_mem_singleton.mpr rfl), .nil, by simp⟩
  · rintro acc lx ts next ⟨htracked, haligned⟩ hstep
    exact ⟨htracked.step hstep, haligned.step htracked hstep⟩
  · rintro acc lx ts ⟨htracked, haligned⟩ hstep
    obtain ⟨-, c, -, rfl⟩ := step_done hstep
    have hlayout : ∀ t ∈ (if lx.lineOpen then [.atSpan .lineEnd "\n" c.point] else [])
        ++ lx.indents.dropLast.map (fun _ => Token.atSpan .dedent "" c.point)
        ++ [.atSpan .sourceEnd "" c.point], t.kind.isLayout = true := by
      intro t ht
      simp only [List.mem_append, List.mem_map, List.mem_singleton] at ht
      rcases ht with (ht | ⟨_, -, rfl⟩) | rfl
      · split at ht
        · rw [List.mem_singleton.mp ht]
          rfl
        · cases ht
      · rfl
      · rfl
    refine ⟨_, [], (List.append_nil _).symm, ⟨?_, isChain_append_layout haligned.beside hlayout⟩,
      List.forall_mem_nil _⟩
    rw [ownTokens_append, ownTokens_of_layout hlayout, List.append_nil]
    exact htracked.accounted.ordered
  · rintro acc lx ts e ⟨htracked, haligned⟩ hstep
    refine ⟨acc, ts, rfl, ⟨htracked.accounted.ordered, haligned.beside⟩, fun t ht hkind => ?_⟩
    rcases (step_fail hstep t ht).2 with h | h | h <;> rw [hkind] at h <;> cases h

end Lexer

theorem InRows.left {xs ys : List Token} (h : InRows (xs ++ ys)) : InRows xs := by
  refine ⟨?_, h.beside.left_of_append⟩
  have hordered := h.ordered
  rw [ownTokens_append] at hordered
  exact (List.pairwise_append.mp hordered).1

theorem InRows.right {xs ys : List Token} (h : InRows (xs ++ ys)) : InRows ys := by
  refine ⟨?_, h.beside.right_of_append⟩
  have hordered := h.ordered
  rw [ownTokens_append] at hordered
  exact (List.pairwise_append.mp hordered).2.1

/-- What comes before the end of a line is in rows. -/
theorem inRows_tokensOf {text : String} {xs ys : List Token} {last : Token}
    (h : (tokensOf text).items = xs ++ last :: ys) (hlast : last.kind = .lineEnd) :
    InRows xs := by
  obtain ⟨before, after, htokens, hrows, hafter⟩ := Lexer.rows_tokens text
  rw [h] at htokens
  rcases List.append_eq_append_iff.mp htokens with ⟨more, rfl, -⟩ | ⟨more, rfl, rfl⟩
  · exact hrows.left
  · exact absurd hlast (hafter last (by simp))

end DialogScript
