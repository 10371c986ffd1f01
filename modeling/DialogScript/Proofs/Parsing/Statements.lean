import DialogScript.Proofs.Parsing.DigitBounds
import DialogScript.Proofs.Parsing.Headers

/-!
# The parser of programs

The parser of statements and the grammar agree, and with it `parseTokens`: it goes through
without an error and gives some statements if and only if the grammar derives these statements
from the tokens and no integer has more digits than can be read. The grammar is unambiguous: the
statements are determined by the tokens.

As for expressions, soundness says what comes out of each part of the parser: a derivation of the
tokens that it read, or an error that the feed stops at.

A choice reads every `else` that follows it. This is sound because no statement starts with
`else`, so the tokens after a choice never do.
-/

namespace DialogScript

open Grammar

variable {digits : DigitLimit}

namespace Parser

/-- The words for input types are those of the grammar. -/
theorem inputType?_eq_some {word : String} {type : InputType} :
    inputType? word = some type ↔ (word, type) ∈ Grammar.inputWords := by
  simp only [Grammar.inputWords, List.mem_cons, List.not_mem_nil, or_false, Prod.mk.injEq]
  unfold inputType?
  split <;> simp_all [eq_comm]

/-! ### Soundness -/

/-- In front of an assignment, the parser reads one, or the feed snags. -/
theorem assignment_outcome {f g : Feed} {us : List Token} (h : f.Between us g)
    (hname : g.current.kind = .name) (hsign : g.following.kind = .sign .assign) :
    Verdict (fun r => ∃ ts, Statement f.digits ts r.1 ∧ g.Shows ts r.2.1) f.Snags
      (assignment g) := by
  rw [assignment]
  refine (h.made.takeOwn h.shows (by rw [hname]; rfl)).bind ?_
  rintro ⟨name, f₁, h₁⟩ ⟨hkind, hshowName, hline₁⟩
  rw [hshowName.following] at hsign
  refine (hline₁.made.takeOwn hline₁.shows (by rw [hsign]; rfl)).bind ?_
  rintro ⟨sign, f₂, h₂⟩ ⟨hkind', hshowSign, hline₂⟩
  refine (expression_outcome hline₂).bind ?_
  rintro ⟨value, f₃, h₃⟩ ⟨ts, hts, hshows⟩
  refine (hline₂.next hshows hts.endsOwn).expectLineEnd.bind ?_
  rintro ⟨f₄, h₄⟩ ⟨last, hlast, hshowLast⟩
  refine ((h.made.token hshowName).place _).bind ?_
  rintro _ rfl
  exact ⟨name :: sign :: ts ++ [last], .assign (hkind.trans hname) (hkind'.trans hsign) hts hlast,
    ((hshowName.trans hshowSign).trans hshows).trans hshowLast⟩

/-- In front of the sign of an output, the parser reads an output, or the feed snags. -/
theorem output_outcome {f g : Feed} {us : List Token} (h : f.Between us g)
    (hsign : g.current.kind = .sign .output) :
    Verdict (fun r => ∃ ts, Statement f.digits ts r.1 ∧ g.Shows ts r.2.1) f.Snags
      (output g) := by
  rw [output]
  refine (h.made.takeOwn h.shows (by rw [hsign]; rfl)).bind ?_
  rintro ⟨sign, f₁, h₁⟩ ⟨hkind, hshow, hline⟩
  refine (expression_outcome hline).bind ?_
  rintro ⟨value, f₂, h₂⟩ ⟨ts, hts, hshows⟩
  refine (hline.next hshows hts.endsOwn).expectLineEnd.bind ?_
  rintro ⟨f₃, h₃⟩ ⟨last, hlast, hshowLast⟩
  refine ((h.made.token hshow).place _).bind ?_
  rintro _ rfl
  exact ⟨sign :: ts ++ [last], .output (hkind.trans hsign) hts hlast,
    (hshow.trans hshows).trans hshowLast⟩

/-- In front of the sign of an input, the parser reads an input, or the feed snags. -/
theorem input_outcome {f g : Feed} {us : List Token} (h : f.Between us g)
    (hsign : g.current.kind = .sign .input) :
    Verdict (fun r => ∃ ts, Statement f.digits ts r.1 ∧ g.Shows ts r.2.1) f.Snags (input g) := by
  rw [input]
  refine (h.made.takeOwn h.shows (by rw [hsign]; rfl)).bind ?_
  rintro ⟨sign, f₁, h₁⟩ ⟨hkind, hshowSign, hline₁⟩
  rw [hsign] at hkind
  refine (hline₁.expect (by decide) _).bind ?_
  rintro ⟨name, f₂, h₂⟩ ⟨hname, hshowName⟩
  have hline₂ := hline₁.next hshowName (.singleton (by rw [hname]; rfl))
  have hshow := hshowSign.trans hshowName
  refine ((h.made.token hshowSign).place _).bind ?_
  rintro _ rfl
  refine ((hline₁.made.token hshowName).place _).bind ?_
  rintro _ rfl
  dsimp only
  split
  · rename_i hcurrent
    obtain ⟨hlink, has⟩ := hcurrent
    refine (hline₂.made.takeOwn hline₂.shows (by rw [hlink]; rfl)).bind ?_
    rintro ⟨link, f₃, h₃⟩ ⟨-, hshowLink, hline₃⟩
    rw [hshowLink.current] at hlink has
    refine (hline₃.expect (by decide) _).bind ?_
    rintro ⟨word, f₄, h₄⟩ ⟨hword, hshowWord⟩
    have hown : word.kind.isLayout = false := by rw [hword]; rfl
    have hline₄ := hline₃.next hshowWord (.singleton hown)
    dsimp only
    split
    · exact ⟨_, f₄, hline₄.shows, .word rfl (by simp) hown hline₄.own⟩
    · rename_i type htype
      refine ((hline₃.made.token hshowWord).place _).bind ?_
      rintro _ rfl
      refine hline₄.expectLineEnd.bind ?_
      rintro ⟨f₅, h₅⟩ ⟨last, hlast, hshowLast⟩
      exact ⟨[sign, name, link, word, last],
        .typedInput hkind hname hlink has hword (inputType?_eq_some.mp htype) hlast,
        ((hshow.trans hshowLink).trans hshowWord).trans hshowLast⟩
  · refine hline₂.expectLineEnd.bind ?_
    rintro ⟨f₃, h₃⟩ ⟨last, hlast, hshowLast⟩
    exact ⟨[sign, name, last], .input hkind hname hlast, hshow.trans hshowLast⟩

/-- Where no statement starts, the feed stops, unless it is at the end of a block. -/
theorem noStatement_stops {f g : Feed} {us : List Token} (h : f.Between us g)
    (hclosing : g.current.isClosing = false) : f.Stops (noStatement g) := by
  unfold noStatement
  dsimp only
  split
  · rename_i hkind
    exact .snag ⟨us, g, h.shows, .next rfl (by rw [hkind]; rfl)⟩
  all_goals exact h.complaint hclosing rfl

mutual

/-- Where a statement can stand, what the parser reads as one is one, or the feed stops. -/
theorem statement_outcome {f g : Feed} {us : List Token} (h : f.Between us g)
    (hclosing : g.current.isClosing = false) :
    Verdict (fun r => ∃ ts, Statement f.digits ts r.1 ∧ g.Shows ts r.2.1) f.Stops
      (statement g) := by
  rw [statement]
  split
  · rename_i hkind
    split
    · rename_i hsign
      exact (assignment_outcome h hkind hsign).mono_error fun _ => .snag
    · exact noStatement_stops h hclosing
  · rename_i hkind
    exact (output_outcome h hkind).mono_error fun _ => .snag
  · rename_i hkind
    exact (input_outcome h hkind).mono_error fun _ => .snag
  · rename_i hkind
    refine (block_outcome h.made h.shows hkind h.leads.closed_le_opened
      (h.leads.indent hkind)).mono_result ?_
    rintro ⟨s, f₁, h₁⟩ ⟨ts, hts, hshows⟩
    exact ⟨ts, .block hts, hshows⟩
  · rename_i hkind
    exact loop_outcome h hkind
  · rename_i hkind
    exact choice_outcome h hkind
  · exact noStatement_stops h hclosing
termination_by (g.remaining, 1)

/-- What the parser reads up to the end of a block are statements. -/
theorem statements_outcome {f g : Feed} {us : List Token} (h : f.Between us g) :
    Verdict (fun r => ∃ ts, Statements f.digits ts r.1 ∧ g.Shows ts r.2.1 ∧
      endsBlock r.2.1.current.kind = true) f.Stops (statements g) := by
  rw [statements]
  split
  · rename_i hends
    exact ⟨[], .nil, Feed.Shows.refl g, hends⟩
  rename_i hgoes
  have hclosing : g.current.isClosing = false := by
    simpa [endsBlock, Token.isClosing] using hgoes
  refine (statement_outcome h hclosing).bind ?_
  rintro ⟨s, f₁, h₁⟩ ⟨ts, hts, hshow⟩
  refine (statements_outcome (h.next hshow (.of_statement hts))).bind ?_
  rintro ⟨rest, f₂, h₂⟩ ⟨vs, hvs, hshows, hends⟩
  exact ⟨ts ++ vs, .cons hts hvs, hshow.trans hshows, hends⟩
termination_by (g.remaining, 2)

/-- In front of an indentation, what the parser reads as a block is one, or the feed stops. -/
theorem block_outcome {f g : Feed} {us : List Token} (hmade : g.WellMade) (hshows : f.Shows us g)
    (hkind : g.current.kind = .indent) (hblocks : blocksClosed us ≤ blocksOpened us)
    (hleads : Leads f.digits (us ++ [g.current])) :
    Verdict (fun r => ∃ ts, Block f.digits ts r.1 ∧ g.Shows ts r.2.1) f.Stops (block g) := by
  rw [block, Feed.expect, if_pos hkind]
  refine ((hmade.take hshows (by rw [hkind]; decide)).mono_error fun _ => .snag).bind ?_
  rintro ⟨indent, f₁, h₁⟩ ⟨hindent, hshow⟩
  dsimp only at hindent hshow
  rw [← hindent] at hkind hleads
  have hbetween : f.Between (us ++ [indent]) f₁ :=
    ⟨hmade.shows hshow, hshows.trans hshow, hleads⟩
  refine (statements_outcome hbetween).bind ?_
  rintro ⟨ss, f₂, h₂⟩ ⟨ts, hts, hshowBody, hends⟩
  have hbody := hbetween.next hshowBody (.of_statements hts)
  dsimp only
  by_cases hclose : f₂.current.kind = .dedent
  · rw [Feed.expect, if_pos hclose]
    refine ((hbody.made.take hbody.shows (by rw [hclose]; decide)).mono_error
      fun _ => .snag).bind ?_
    rintro ⟨dedent, f₃, h₃⟩ ⟨hdedent, hshowClose⟩
    refine ((hmade.token hshow).place _).bind ?_
    rintro _ rfl
    dsimp only at hdedent
    exact ⟨indent :: ts ++ [dedent], .indented hkind (hdedent ▸ hclose) hts,
      (hshow.trans hshowBody).trans hshowClose⟩
  · -- The block was opened and is not closed.
    rw [Feed.expect, if_neg hclose]
    refine .unclosed hbody.shows ?_ (by simpa [endsBlock, hclose] using hends)
    have hbalanced := hts.balanced.blocks
    simp only [blocksClosed, blocksOpened] at hblocks hbalanced
    simp [blocksClosed, blocksOpened, hkind, hbalanced]
    omega
termination_by (g.remaining, 0)

/-- Behind a header, what the parser reads as its body is the end of a line and a block, or the
feed stops. -/
theorem body_outcome {f g : Feed} {us header : List Token} {span : Span} {owner : BodyOwner}
    (hleads : Leads f.digits us) (hheader : Header f.digits owner header span)
    (h : f.OnLine (us ++ header) g) :
    Verdict (fun r => ∃ last ts, last.kind = .lineEnd ∧ Block f.digits ts r.1 ∧
      g.Shows (last :: ts) r.2.1) f.Stops (body g span owner) := by
  rw [body]
  split
  · exact .snag (h.complaint rfl)
  rename_i hline
  rw [ne_eq, Decidable.not_not] at hline
  split
  · rename_i hnext
    exact .body hleads hheader h.shows hline hnext
  rename_i hnext
  rw [ne_eq, Decidable.not_not] at hnext
  refine ((h.made.take h.shows (by rw [hline]; decide)).mono_error fun _ => .snag).bind ?_
  rintro ⟨last, f₁, h₁⟩ ⟨hlast, hshow⟩
  dsimp only at hlast hshow
  rw [← hlast] at hline
  rw [hshow.following] at hnext
  have hblocks : blocksClosed (us ++ header ++ [last]) ≤ blocksOpened (us ++ header ++ [last]) := by
    have hown := hheader.balanced hline .nil
    rw [List.append_assoc, blocksClosed_append, blocksOpened_append, hown.blocks]
    exact Nat.add_le_add_right hleads.closed_le_opened _
  have hleads' : Leads f.digits (us ++ header ++ [last] ++ [f₁.current]) := by
    simpa using hleads.append (.header hheader hline hnext (.block hnext .nil))
  refine (block_outcome (h.made.shows hshow) (h.shows.trans hshow) hnext hblocks hleads').bind ?_
  rintro ⟨s, f₂, h₂⟩ ⟨ts, hts, hshows⟩
  exact ⟨last, ts, hline, hts, hshow.trans hshows⟩
termination_by (g.remaining, 0)

/-- In front of its keyword, what the parser reads as a loop is one, or the feed stops. -/
theorem loop_outcome {f g : Feed} {us : List Token} (h : f.Between us g)
    (hkind : g.current.kind = .keyword .whileWord) :
    Verdict (fun r => ∃ ts, Statement f.digits ts r.1 ∧ g.Shows ts r.2.1) f.Stops (loop g) := by
  rw [loop]
  refine ((h.made.takeOwn h.shows (by rw [hkind]; rfl)).mono_error fun _ => .snag).bind ?_
  rintro ⟨keyword, f₁, h₁⟩ ⟨hkeyword, hshow, hline⟩
  rw [hkind] at hkeyword
  refine ((expression_outcome hline).mono_error fun _ => .snag).bind ?_
  rintro ⟨condition, f₂, h₂⟩ ⟨ts, hts, hshows⟩
  have hless : f₂.remaining < g.remaining := Nat.lt_trans h₂ h₁
  have hline' := hline.next hshows hts.endsOwn
  rw [List.append_assoc] at hline'
  refine (body_outcome h.leads (.loop hkeyword hts) hline').bind ?_
  rintro ⟨s, f₃, h₃⟩ ⟨last, vs, hlast, hvs, hshowBody⟩
  refine ((h.made.token hshow).place _).bind ?_
  rintro _ rfl
  exact ⟨keyword :: ts ++ last :: vs, .loop hkeyword hts hlast hvs,
    (hshow.trans hshows).trans hshowBody⟩
termination_by (g.remaining, 0)

/-- In front of its keyword, what the parser reads as a choice is one, or the feed stops. -/
theorem choice_outcome {f g : Feed} {us : List Token} (h : f.Between us g)
    (hkind : g.current.kind = .keyword .ifWord) :
    Verdict (fun r => ∃ ts, Statement f.digits ts r.1 ∧ g.Shows ts r.2.1) f.Stops (choice g) := by
  rw [choice]
  refine ((h.made.takeOwn h.shows (by rw [hkind]; rfl)).mono_error fun _ => .snag).bind ?_
  rintro ⟨keyword, f₁, h₁⟩ ⟨hkeyword, hshow, hline⟩
  rw [hkind] at hkeyword
  refine ((expression_outcome hline).mono_error fun _ => .snag).bind ?_
  rintro ⟨condition, f₂, h₂⟩ ⟨ts, hts, hshows⟩
  have hless : f₂.remaining < g.remaining := Nat.lt_trans h₂ h₁
  have hheader := Header.branch hkeyword hts
  have hline' := hline.next hshows hts.endsOwn
  rw [List.append_assoc] at hline'
  refine (body_outcome h.leads hheader hline').bind ?_
  rintro ⟨s, f₃, h₃⟩ ⟨last, vs, hlast, hvs, hshowBody⟩
  have hless' : f₃.remaining < g.remaining := Nat.lt_trans h₃ hless
  refine ((h.made.token hshow).place _).bind ?_
  rintro _ rfl
  have hbranch := (hshow.trans hshows).trans hshowBody
  refine (elseParts_outcome (h.next hbranch (.of_branch hheader hlast hvs))).bind ?_
  rintro ⟨others, otherwise, f₄, h₄⟩ ⟨ws, hws, hshowElse⟩
  exact ⟨keyword :: ts ++ last :: vs ++ ws, .choice hkeyword hts hlast hvs hws,
    hbranch.trans hshowElse⟩
termination_by (g.remaining, 0)

/-- Behind a branch, what the parser reads as the other branches are such branches, or the feed
stops. -/
theorem elseParts_outcome {f g : Feed} {us : List Token} (h : f.Between us g) :
    Verdict (fun r => ∃ ts, ElseParts f.digits ts r.1 r.2.1 ∧ g.Shows ts r.2.2.1) f.Stops
      (elseParts g) := by
  have hword : ∀ word kind, (kind == TokenKind.keyword word) = true → kind.isLayout = false := by
    intro word kind hkind
    rw [eq_of_beq hkind]
    rfl
  rw [elseParts]
  refine ((h.made.acceptOwn h.shows (hword _)).mono_error fun _ => .snag).bind ?_
  rintro (_ | ⟨elseToken, f₁, h₁⟩) haccepted
  · exact ⟨[], .nothing, Feed.Shows.refl g⟩
  obtain ⟨helse, hshow, hline⟩ := haccepted _ _ rfl
  rw [beq_iff_eq] at helse
  refine ((hline.made.acceptOwn hline.shows (hword _)).mono_error fun _ => .snag).bind ?_
  rintro (_ | ⟨ifToken, f₂, h₂⟩) haccepted'
  · refine ((h.made.token hshow).place _).bind ?_
    rintro _ rfl
    refine (body_outcome h.leads (.otherwise helse) hline).bind ?_
    rintro ⟨s, f₂, h₂⟩ ⟨last, ts, hlast, hts, hshowBody⟩
    exact ⟨elseToken :: last :: ts, .otherwise helse hlast hts, hshow.trans hshowBody⟩
  · obtain ⟨hif, hshowIf, hline₂⟩ := haccepted' _ _ rfl
    rw [beq_iff_eq] at hif
    refine ((expression_outcome hline₂).mono_error fun _ => .snag).bind ?_
    rintro ⟨condition, f₃, h₃⟩ ⟨ts, hts, hshows⟩
    have hless : f₃.remaining < g.remaining := Nat.lt_trans h₃ (Nat.lt_trans h₂ h₁)
    have hheader := Header.elseBranch helse hif hts
    have hline₃ := hline₂.next hshows hts.endsOwn
    rw [List.append_assoc, List.append_assoc] at hline₃
    refine (body_outcome h.leads hheader hline₃).bind ?_
    rintro ⟨s, f₄, h₄⟩ ⟨last, vs, hlast, hvs, hshowBody⟩
    have hless' : f₄.remaining < g.remaining := Nat.lt_trans h₄ hless
    refine ((h.made.token hshow).place _).bind ?_
    rintro _ rfl
    refine ((hline.made.token hshowIf).place _).bind ?_
    rintro _ rfl
    have hbranch := ((hshow.trans hshowIf).trans hshows).trans hshowBody
    refine (elseParts_outcome (h.next hbranch (.of_branch hheader hlast hvs))).bind ?_
    rintro ⟨others, otherwise, f₅, h₅⟩ ⟨ws, hws, hshowElse⟩
    exact ⟨elseToken :: ifToken :: ts ++ last :: vs ++ ws,
      .branch helse hif hts hlast hvs hws, hbranch.trans hshowElse⟩
termination_by (g.remaining, 0)

end

/-! ### Completeness -/

/-- Whether a statement can start with a token of a kind. -/
def startsStatement (kind : TokenKind) : Bool :=
  [.name, .sign .output, .sign .input, .indent, .keyword .whileWord, .keyword .ifWord].contains kind

private theorem block_starts {ts : List Token} {s : Stmt} (h : Block digits ts s) :
    ∃ t rest, ts = t :: rest ∧ t.kind = .indent := by
  obtain ⟨hkind, _, _⟩ := h
  exact ⟨_, _, rfl, hkind⟩

private theorem current_of_block {f g : Feed} {ts : List Token} {s : Stmt} (h : Block digits ts s)
    (hshows : f.Shows ts g) : f.current.kind = .indent := by
  obtain ⟨t, rest, rfl, hkind⟩ := block_starts h
  rw [hshows.current, hkind]

/-- A statement has a first token, with which statements can start. -/
theorem statement_starts {ts : List Token} {s : Stmt} (h : Statement digits ts s) :
    ∃ t rest, ts = t :: rest ∧ startsStatement t.kind = true := by
  cases h with
  | assign hkind | output hkind | input hkind | typedInput hkind | loop hkind | choice hkind =>
    exact ⟨_, _, rfl, by rw [hkind]; rfl⟩
  | block h =>
    obtain ⟨t, rest, rfl, hkind⟩ := block_starts h
    exact ⟨t, rest, rfl, by rw [hkind]; rfl⟩

private theorem not_endsBlock_of_starts {kind : TokenKind} (h : startsStatement kind = true) :
    endsBlock kind = false := by
  have hmem : kind ∈ _ := List.contains_iff_mem.mp h
  simp only [List.mem_cons, List.not_mem_nil, or_false] at hmem
  rcases hmem with rfl | rfl | rfl | rfl | rfl | rfl <;> rfl

/-- No `else` follows a statement: what follows is another statement or the end of a block. -/
theorem not_else_of_statements {f g : Feed} {ts : List Token} {ss : List Stmt}
    (h : Statements digits ts ss) (hshows : f.Shows ts g)
    (hends : endsBlock g.current.kind = true) : f.current.kind ≠ .keyword .elseWord := by
  cases h with
  | nil =>
    obtain rfl := hshows.eq_of_nil
    intro helse
    rw [helse] at hends
    exact absurd hends (by decide)
  | cons h hrest =>
    obtain ⟨t, rest, rfl, hstarts⟩ := statement_starts h
    rw [List.cons_append] at hshows
    rw [hshows.current]
    intro helse
    rw [helse] at hstarts
    exact absurd hstarts (by decide)

/-- The parser reads the end of a line and a block as a body. -/
theorem body_complete {f f₁ g : Feed} {last : Token} {s : Stmt} (hlast : last.kind = .lineEnd)
    (hshow : f.Shows [last] f₁) (hopen : f₁.current.kind = .indent)
    (hblock : ∃ hg, block f₁ = .ok (s, ⟨g, hg⟩)) (header : Span) (owner : BodyOwner) :
    ∃ hg, body f header owner = .ok (s, ⟨g, hg⟩) := by
  obtain ⟨hg, hblock⟩ := hblock
  refine ⟨Nat.lt_trans hg (hshow.remaining_lt (by simp)), ?_⟩
  have hcurrent : f.current.kind = .lineEnd := by rw [hshow.current, hlast]
  have hfollowing : f.following.kind = .indent := by rw [hshow.following, hopen]
  rw [body, if_neg (by simp [hcurrent]), if_neg (by simp [hfollowing])]
  simp only [bind, Except.bind, pure, Except.pure, Feed.take_complete hshow, hblock]

/-- The parser reads an expression up to the end of its line. -/
theorem expression_of_line {ts : List Token} {e : Expr} {last : Token} {f g g' : Feed}
    (h : Expression digits .disjunction ts e) (hdigits : f.digits = digits)
    (hmade : ∀ t ∈ ts, t.WellMade) (hshows : f.Shows ts g) (hnext : g.Shows [last] g')
    (hlast : last.kind = .lineEnd) :
    ∃ hg, expression f = .ok (e, ⟨g, hg⟩) := by
  have hcloses : Level.closes g.current.kind = true := by rw [hnext.current, hlast]; rfl
  exact expression_complete h hdigits hmade hshows hcloses

private theorem assignment_complete {name sign last : Token} {ts : List Token} {e : Expr}
    {f g : Feed}
    (hsign : sign.kind = .sign .assign) (he : Expression digits .disjunction ts e)
    (hlast : last.kind = .lineEnd) (hdigits : f.digits = digits)
    (hmade : ∀ t ∈ name :: sign :: ts ++ [last], t.WellMade)
    (hshows : f.Shows (name :: sign :: ts ++ [last]) g) :
    f.following.kind = .sign .assign ∧ ∃ hg, assignment f =
      .ok (.assign name.text e (name.extent.join e.span), ⟨g, hg⟩) := by
  obtain ⟨f₁, hshowName, hrest⟩ := hshows.split_cons
  obtain ⟨f₂, hshowSign, hrest'⟩ := hrest.split_cons
  obtain ⟨f₃, hshowValue, hshowLast⟩ := hrest'.split
  obtain ⟨h₃, hvalue⟩ := expression_of_line he ((hshowName.trans hshowSign).digits.trans hdigits)
    (fun t ht => hmade t (by simp [ht])) hshowValue hshowLast hlast
  refine ⟨?_, hshows.remaining_lt (by simp), ?_⟩
  · rw [hshowName.following, hshowSign.current, hsign]
  · simp only [assignment, bind, Except.bind, pure, Except.pure, Feed.take_complete hshowName,
      Feed.take_complete hshowSign, hvalue, Feed.expectLineEnd_complete hshowLast hlast,
      Token.place_eq_ok (hmade name (by simp)).columns]

private theorem output_complete {sign last : Token} {ts : List Token} {e : Expr} {f g : Feed}
    (he : Expression digits .disjunction ts e) (hlast : last.kind = .lineEnd)
    (hdigits : f.digits = digits) (hmade : ∀ t ∈ sign :: ts ++ [last], t.WellMade)
    (hshows : f.Shows (sign :: ts ++ [last]) g) :
    ∃ hg, output f = .ok (.output e (sign.extent.join e.span), ⟨g, hg⟩) := by
  obtain ⟨f₁, hshowSign, hrest⟩ := hshows.split_cons
  obtain ⟨f₂, hshowValue, hshowLast⟩ := hrest.split
  obtain ⟨h₂, hvalue⟩ := expression_of_line he (hshowSign.digits.trans hdigits)
    (fun t ht => hmade t (by simp [ht])) hshowValue hshowLast hlast
  refine ⟨hshows.remaining_lt (by simp), ?_⟩
  simp only [output, bind, Except.bind, pure, Except.pure, Feed.take_complete hshowSign, hvalue,
    Feed.expectLineEnd_complete hshowLast hlast, Token.place_eq_ok (hmade sign (by simp)).columns]

private theorem input_complete {sign name last : Token} {f g : Feed} (hname : name.kind = .name)
    (hlast : last.kind = .lineEnd) (hmade : ∀ t ∈ [sign, name, last], t.WellMade)
    (hshows : f.Shows [sign, name, last] g) :
    ∃ hg, input f =
      .ok (.input name.text InputType.any.toJson (sign.extent.join name.extent), ⟨g, hg⟩) := by
  obtain ⟨f₁, hshowSign, hrest⟩ := hshows.split_cons
  obtain ⟨f₂, hshowName, hshowLast⟩ := hrest.split_cons
  have hexpect := Feed.expect_complete hshowName "a variable name"
  rw [hname] at hexpect
  have hlink : ¬ (f₂.current.kind = .name ∧ f₂.current.text = "as") := by
    simp [hshowLast.current, hlast]
  refine ⟨hshows.remaining_lt (by simp), ?_⟩
  simp only [input, bind, Except.bind, pure, Except.pure, Feed.take_complete hshowSign, hexpect,
    if_neg hlink, Feed.expectLineEnd_complete hshowLast hlast,
    Token.place_eq_ok (hmade sign (by simp)).columns,
    Token.place_eq_ok (hmade name (by simp)).columns]

private theorem typedInput_complete {sign name link word last : Token} {type : InputType}
    {f g : Feed}
    (hname : name.kind = .name) (hlink : link.kind = .name) (has : link.text = "as")
    (hword : word.kind = .name) (htype : inputType? word.text = some type)
    (hlast : last.kind = .lineEnd) (hmade : ∀ t ∈ [sign, name, link, word, last], t.WellMade)
    (hshows : f.Shows [sign, name, link, word, last] g) :
    ∃ hg, input f = .ok (.input name.text type.toJson
      ((sign.extent.join name.extent).join word.extent), ⟨g, hg⟩) := by
  obtain ⟨f₁, hshowSign, hrest⟩ := hshows.split_cons
  obtain ⟨f₂, hshowName, hrest⟩ := hrest.split_cons
  obtain ⟨f₃, hshowLink, hrest⟩ := hrest.split_cons
  obtain ⟨f₄, hshowWord, hshowLast⟩ := hrest.split_cons
  have hexpect := Feed.expect_complete hshowName "a variable name"
  rw [hname] at hexpect
  have hexpectWord := Feed.expect_complete hshowWord "an input type"
  rw [hword] at hexpectWord
  have hcurrent : f₂.current.kind = .name ∧ f₂.current.text = "as" := by
    rw [hshowLink.current]
    exact ⟨hlink, has⟩
  refine ⟨hshows.remaining_lt (by simp), ?_⟩
  simp only [input, bind, Except.bind, pure, Except.pure, Feed.take_complete hshowSign, hexpect,
    if_pos hcurrent, Feed.take_complete hshowLink, hexpectWord, htype,
    Feed.expectLineEnd_complete hshowLast hlast,
    Token.place_eq_ok (hmade sign (by simp)).columns,
    Token.place_eq_ok (hmade name (by simp)).columns,
    Token.place_eq_ok (hmade word (by simp)).columns]

mutual

/-- The parser reads the tokens of a statement that no `else` follows. -/
theorem statement_complete {ts : List Token} {s : Stmt} (h : Statement digits ts s) {f g : Feed}
    (hdigits : f.digits = digits) (hmade : ∀ t ∈ ts, t.WellMade) (hshows : f.Shows ts g)
    (helse : g.current.kind ≠ .keyword .elseWord) :
    ∃ hg, statement f = .ok (s, ⟨g, hg⟩) := by
  match h with
  | .assign hname hsign he hlast =>
    obtain ⟨hfollowing, hg, hassign⟩ :=
      assignment_complete hsign he hlast hdigits hmade hshows
    refine ⟨hg, ?_⟩
    rw [statement, hshows.current, hname]
    simp only [hfollowing, if_true, hassign]
  | .output hsign he hlast =>
    obtain ⟨hg, houtput⟩ := output_complete he hlast hdigits hmade hshows
    refine ⟨hg, ?_⟩
    rw [statement, hshows.current, hsign]
    exact houtput
  | .input hsign hname hlast =>
    obtain ⟨hg, hinput⟩ := input_complete hname hlast hmade hshows
    refine ⟨hg, ?_⟩
    rw [statement, hshows.current, hsign]
    exact hinput
  | .typedInput hsign hname hlink has hword htype hlast =>
    obtain ⟨hg, hinput⟩ := typedInput_complete hname hlink has hword
      (inputType?_eq_some.mpr htype) hlast hmade hshows
    refine ⟨hg, ?_⟩
    rw [statement, hshows.current, hsign]
    exact hinput
  | .block h =>
    obtain ⟨hg, hblock⟩ := block_complete h hdigits hmade hshows
    refine ⟨hg, ?_⟩
    rw [statement, current_of_block h hshows]
    exact hblock
  | .loop hkeyword he hlast hbody =>
    rename_i keyword last ts us e s
    obtain ⟨f₁, hshowKeyword, hrest⟩ := hshows.split_cons
    obtain ⟨f₂, hshowCondition, hrest⟩ := hrest.split
    obtain ⟨f₃, hshowLast, hshowBody⟩ := hrest.split_cons
    have hdigits₁ := hshowKeyword.digits.trans hdigits
    have hdigits₃ := (hshowCondition.trans hshowLast).digits.trans hdigits₁
    obtain ⟨h₂, hcondition⟩ := expression_of_line he hdigits₁
      (fun t ht => hmade t (by simp [ht])) hshowCondition hshowLast hlast
    obtain ⟨hg, hbody'⟩ := body_complete hlast hshowLast (current_of_block hbody hshowBody)
      (block_complete hbody hdigits₃ (fun t ht => hmade t (by simp [ht])) hshowBody) e.span .loop
    refine ⟨hshows.remaining_lt (by simp), ?_⟩
    rw [statement, hshows.current, hkeyword]
    dsimp only
    rw [loop]
    simp only [bind, Except.bind, pure, Except.pure, Feed.take_complete hshowKeyword, hcondition,
      hbody', Token.place_eq_ok (hmade keyword (by simp)).columns]
  | .choice hkeyword he hlast hbody helse' =>
    rename_i keyword last ts us vs e s otherwise others
    rw [List.append_assoc, List.cons_append, List.cons_append] at hshows
    obtain ⟨f₁, hshowKeyword, hrest⟩ := hshows.split_cons
    obtain ⟨f₂, hshowCondition, hrest⟩ := hrest.split
    obtain ⟨f₃, hshowLast, hrest⟩ := hrest.split_cons
    obtain ⟨f₄, hshowBody, hshowElse⟩ := hrest.split
    have hdigits₁ := hshowKeyword.digits.trans hdigits
    have hdigits₃ := (hshowCondition.trans hshowLast).digits.trans hdigits₁
    obtain ⟨h₂, hcondition⟩ := expression_of_line he hdigits₁
      (fun t ht => hmade t (by simp [ht])) hshowCondition hshowLast hlast
    obtain ⟨h₄, hbody'⟩ := body_complete hlast hshowLast (current_of_block hbody hshowBody)
      (block_complete hbody hdigits₃ (fun t ht => hmade t (by simp [ht])) hshowBody) e.span .branch
    obtain ⟨hg, helseParts⟩ := elseParts_complete helse' (hshowBody.digits.trans hdigits₃)
      (fun t ht => hmade t (by simp [ht])) hshowElse helse
    refine ⟨hshows.remaining_lt (by simp), ?_⟩
    rw [statement, hshows.current, hkeyword]
    dsimp only
    rw [choice]
    simp only [bind, Except.bind, pure, Except.pure, Feed.take_complete hshowKeyword, hcondition,
      hbody', Token.place_eq_ok (hmade keyword (by simp)).columns, helseParts]
termination_by structural h

/-- The parser reads the tokens of statements before the end of a block. -/
theorem statements_complete {ts : List Token} {ss : List Stmt} (h : Statements digits ts ss)
    {f g : Feed} (hdigits : f.digits = digits) (hmade : ∀ t ∈ ts, t.WellMade)
    (hshows : f.Shows ts g) (hends : endsBlock g.current.kind = true) :
    ∃ hg, statements f = .ok (ss, ⟨g, hg⟩) := by
  match h with
  | .nil =>
    refine ⟨hshows.remaining_le, ?_⟩
    obtain rfl := hshows.eq_of_nil
    rw [statements, if_pos hends]
    rfl
  | .cons h hrest =>
    rename_i ts us s rest
    obtain ⟨f₁, hshow, hshowRest⟩ := hshows.split
    -- A choice takes every `else` that follows it, but no statement and no end starts with one.
    have hnext : f₁.current.kind ≠ .keyword .elseWord :=
      not_else_of_statements hrest hshowRest hends
    obtain ⟨h₁, hfirst⟩ := statement_complete h hdigits (fun t ht => hmade t (by simp [ht])) hshow
      hnext
    obtain ⟨h₂, hrest'⟩ := statements_complete hrest (hshow.digits.trans hdigits)
      (fun t ht => hmade t (by simp [ht])) hshowRest hends
    have hcurrent : endsBlock f.current.kind = false := by
      obtain ⟨t, rest, rfl, hstarts⟩ := statement_starts h
      rw [hshow.current]
      exact not_endsBlock_of_starts hstarts
    refine ⟨hshows.remaining_le, ?_⟩
    rw [statements, if_neg (by simp [hcurrent])]
    simp only [bind, Except.bind, pure, Except.pure, hfirst, hrest']
termination_by structural h

/-- The parser reads the tokens of a block. -/
theorem block_complete {ts : List Token} {s : Stmt} (h : Block digits ts s) {f g : Feed}
    (hdigits : f.digits = digits) (hmade : ∀ t ∈ ts, t.WellMade) (hshows : f.Shows ts g) :
    ∃ hg, block f = .ok (s, ⟨g, hg⟩) := by
  match h with
  | .indented ho hc h =>
    rename_i o c ts body
    obtain ⟨f₁, hshowOpen, hrest⟩ := hshows.split_cons
    obtain ⟨f₂, hshowBody, hshowClose⟩ := hrest.split
    have hends : endsBlock f₂.current.kind = true := by rw [hshowClose.current, hc]; rfl
    obtain ⟨h₂, hbody⟩ := statements_complete h (hshowOpen.digits.trans hdigits)
      (fun t ht => hmade t (by simp [ht])) hshowBody hends
    have hindent := Feed.expect_complete hshowOpen "indentation"
    rw [ho] at hindent
    have hdedent := Feed.expect_complete hshowClose "end of block"
    rw [hc] at hdedent
    refine ⟨hshows.remaining_lt (by simp), ?_⟩
    rw [block]
    simp only [hindent, hbody, hdedent, bind, Except.bind, pure, Except.pure,
      Token.place_eq_ok (hmade o (by simp)).columns]
termination_by structural h

/-- The parser reads the further branches of a choice that no `else` follows. -/
theorem elseParts_complete {ts : List Token} {others : List Stmt} {otherwise : Stmt}
    (h : ElseParts digits ts others otherwise) {f g : Feed} (hdigits : f.digits = digits)
    (hmade : ∀ t ∈ ts, t.WellMade) (hshows : f.Shows ts g)
    (helse : g.current.kind ≠ .keyword .elseWord) :
    ∃ hg, elseParts f = .ok (others, otherwise, ⟨g, hg⟩) := by
  match h with
  | .nothing =>
    obtain rfl := hshows.eq_of_nil
    have haccept : f.accept (· == .keyword .elseWord) = .ok none :=
      Feed.accept_eq_none.mpr (by simpa using helse)
    refine ⟨hshows.remaining_le, ?_⟩
    rw [elseParts, haccept]
    rfl
  | .otherwise hkeyword hlast hbody =>
    rename_i keyword last us
    obtain ⟨f₁, hshowKeyword, hrest⟩ := hshows.split_cons
    obtain ⟨f₂, hshowLast, hshowBody⟩ := hrest.split_cons
    have haccept := Feed.accept_complete hshowKeyword (p := (· == .keyword .elseWord))
      (by simp [hkeyword])
    have haccept' : f₁.accept (· == .keyword .ifWord) = .ok none :=
      Feed.accept_eq_none.mpr (by rw [hshowLast.current, hlast]; rfl)
    obtain ⟨hg, hbody'⟩ := body_complete hlast hshowLast (current_of_block hbody hshowBody)
      (block_complete hbody ((hshowKeyword.trans hshowLast).digits.trans hdigits)
        (fun t ht => hmade t (by simp [ht])) hshowBody) keyword.extent .otherwise
    refine ⟨hshows.remaining_le, ?_⟩
    rw [elseParts, haccept]
    simp only [bind, Except.bind, pure, Except.pure, haccept',
      Token.place_eq_ok (hmade keyword (by simp)).columns, hbody']
  | .branch hkeyword hsecond he hlast hbody helse' =>
    rename_i keyword second last ts us vs e s others
    rw [List.append_assoc, List.cons_append, List.cons_append, List.cons_append] at hshows
    obtain ⟨f₁, hshowKeyword, hrest⟩ := hshows.split_cons
    obtain ⟨f₂, hshowSecond, hrest⟩ := hrest.split_cons
    obtain ⟨f₃, hshowCondition, hrest⟩ := hrest.split
    obtain ⟨f₄, hshowLast, hrest⟩ := hrest.split_cons
    obtain ⟨f₅, hshowBody, hshowElse⟩ := hrest.split
    have haccept := Feed.accept_complete hshowKeyword (p := (· == .keyword .elseWord))
      (by simp [hkeyword])
    have haccept' := Feed.accept_complete hshowSecond (p := (· == .keyword .ifWord))
      (by simp [hsecond])
    have hdigits₂ := (hshowKeyword.trans hshowSecond).digits.trans hdigits
    have hdigits₄ := (hshowCondition.trans hshowLast).digits.trans hdigits₂
    obtain ⟨h₃, hcondition⟩ := expression_of_line he hdigits₂
      (fun t ht => hmade t (by simp [ht])) hshowCondition hshowLast hlast
    obtain ⟨h₅, hbody'⟩ := body_complete hlast hshowLast (current_of_block hbody hshowBody)
      (block_complete hbody hdigits₄ (fun t ht => hmade t (by simp [ht])) hshowBody) e.span
      .elseBranch
    obtain ⟨hg, helseParts⟩ := elseParts_complete helse' (hshowBody.digits.trans hdigits₄)
      (fun t ht => hmade t (by simp [ht])) hshowElse helse
    refine ⟨hshows.remaining_le, ?_⟩
    rw [elseParts, haccept]
    simp only [bind, Except.bind, pure, Except.pure, haccept', hcondition, hbody',
      Token.place_eq_ok (hmade keyword (by simp)).columns,
      Token.place_eq_ok (hmade second (by simp)).columns, helseParts]
termination_by structural h

end

/-! ### Programs -/

/-- Behind complete statements, the parser reads statements up to the end of the source, or up to
an error at which the feed stops. -/
theorem statementsFrom_outcome {f g : Feed} {us : List Token} (h : f.Between us g)
    (hbalanced : Balanced us) :
    ∃ ts k, Statements f.digits ts (statementsFrom g).items ∧ g.Shows ts k ∧
      ((statementsFrom g).fault = none → k.current.kind = .sourceEnd) ∧
      ∀ e, (statementsFrom g).fault = some e → f.Stops e := by
  rw [statementsFrom]
  split
  · rename_i hend
    exact ⟨[], g, .nil, Feed.Shows.refl g, fun _ => hend, by simp⟩
  rename_i hend
  by_cases hdedent : g.current.kind = .dedent
  · -- All blocks are closed, so there is none that could end here.
    have hstatement : statement g = .error (g.complaint (.unexpected g.current)) := by
      rw [statement, hdedent]
      simp only [noStatement, hdedent]
    rw [hstatement]
    refine ⟨[], g, .nil, Feed.Shows.refl g, by simp, ?_⟩
    rintro e ⟨⟩
    exact .unopened h.shows hbalanced.blocks hdedent
  have houtcome := statement_outcome h (by simp [Token.isClosing, hend, hdedent])
  split
  · rename_i e hfirst
    rw [hfirst] at houtcome
    refine ⟨[], g, .nil, Feed.Shows.refl g, by simp, ?_⟩
    rintro e ⟨⟩
    exact houtcome
  · rename_i s f₁ h₁ hfirst
    rw [hfirst] at houtcome
    obtain ⟨ts, hts, hshow⟩ := houtcome
    obtain ⟨vs, k, hvs, hshows, hrest⟩ := statementsFrom_outcome
      (h.next hshow (.of_statement hts)) (hbalanced.append hts.balanced)
    exact ⟨ts ++ vs, k, .cons hts hvs, hshow.trans hshows, hrest⟩
termination_by g.remaining

/-- The parser gives a statement that it has been shown and goes on after it. -/
theorem statementsFrom_cons {ts : List Token} {s : Stmt} (h : Statement digits ts s) {f g : Feed}
    (hdigits : f.digits = digits) (hmade : ∀ t ∈ ts, t.WellMade) (hshows : f.Shows ts g)
    (helse : g.current.kind ≠ .keyword .elseWord) :
    statementsFrom f = (statementsFrom g).prepend [s] := by
  obtain ⟨hg, hfirst⟩ := statement_complete h hdigits hmade hshows helse
  have hcurrent : f.current.kind ≠ .sourceEnd := by
    obtain ⟨t, rest, rfl, hstarts⟩ := statement_starts h
    rw [hshows.current]
    intro heq
    rw [heq] at hstarts
    exact absurd hstarts (by decide)
  rw [statementsFrom, if_neg hcurrent, hfirst]

/-- The parser reads the tokens of statements before the end of the source. -/
theorem statementsFrom_complete {ts : List Token} {ss : List Stmt} (h : Statements digits ts ss)
    {f g : Feed} (hdigits : f.digits = digits) (hmade : ∀ t ∈ ts, t.WellMade)
    (hshows : f.Shows ts g) (hend : g.current.kind = .sourceEnd) :
    statementsFrom f = ⟨ss, none⟩ := by
  have hends : endsBlock g.current.kind = true := by rw [hend]; rfl
  match h with
  | .nil =>
    obtain rfl := hshows.eq_of_nil
    rw [statementsFrom, if_pos hend]
  | .cons h hrest =>
    rename_i ts us s rest
    obtain ⟨f₁, hshow, hshowRest⟩ := hshows.split
    have helse := not_else_of_statements hrest hshowRest hends
    rw [statementsFrom_cons h hdigits (fun t ht => hmade t (by simp [ht])) hshow helse,
      statementsFrom_complete hrest (hshow.digits.trans hdigits)
        (fun t ht => hmade t (by simp [ht])) hshowRest hend]
    rfl
termination_by structural h

end Parser

/-- What well-made tokens make up before the first error are statements of the grammar. The error
is the fault behind the tokens, or one that their feed stops at. -/
theorem parseTokens_outcome {l : Listing Token SyntaxError} (digits : DigitLimit)
    (hmade : ∀ t ∈ l.items, t.WellMade) :
    ∃ ts g, Statements digits ts (parseTokens l digits).items ∧
      (Feed.ofListing l digits).Shows ts g ∧
      ((parseTokens l digits).fault = none → g.current.kind = .sourceEnd) ∧
      ∀ e, (parseTokens l digits).fault = some e →
        (∃ error, l.fault = some error ∧ e = .malformed error) ∨
          (l.fault.isSome → Feed.hasTwo l.items = true) ∧ (Feed.ofListing l digits).Stops e := by
  unfold parseTokens
  rcases Feed.start_cases l digits with ⟨hstart, htwo⟩ | ⟨error, hfault, hstart⟩
  · rw [hstart]
    have hbetween : (Feed.ofListing l digits).Between [] (Feed.ofListing l digits) :=
      ⟨.ofListing hmade digits, .refl _, .nil⟩
    obtain ⟨ts, g, hts, hshows, hend, hstops⟩ := Parser.statementsFrom_outcome hbetween .nil
    exact ⟨ts, g, hts, hshows, hend, fun e he => .inr ⟨htwo, hstops e he⟩⟩
  · rw [hstart]
    refine ⟨[], _, .nil, .refl _, by simp, ?_⟩
    rintro e ⟨⟩
    exact .inl ⟨error, hfault, rfl⟩

theorem parseTokens_of_grammar {tokens : List Token} {ss : List Stmt}
    (hmade : ∀ t ∈ tokens, t.WellMade) (h : Grammar.Program digits tokens ss) :
    parseTokens ⟨tokens, none⟩ digits = ⟨ss, none⟩ := by
  obtain @⟨ts, _, last, hstatements, hlast⟩ := h
  have hshows : (⟨ts ++ [last], Feed.endAfter (ts ++ [last]), none, digits⟩ : Feed).Shows ts
      ⟨[last], Feed.endAfter (ts ++ [last]), none, digits⟩ := ⟨rfl, rfl, rfl, rfl, by simp⟩
  exact Parser.statementsFrom_complete hstatements rfl (fun t ht => hmade t (by simp [ht])) hshows
    hlast

theorem grammar_of_parseTokens {tokens : List Token} {ss : List Stmt} (hend : EndsOnce tokens)
    (hmade : ∀ t ∈ tokens, t.WellMade) (h : parseTokens ⟨tokens, none⟩ digits = ⟨ss, none⟩) :
    Grammar.Program digits tokens ss := by
  obtain ⟨ts, g, hts, hshows, hcurrent, -⟩ :=
    parseTokens_outcome (l := ⟨tokens, none⟩) digits hmade
  rw [h] at hts hcurrent
  have hcurrent := hcurrent rfl
  obtain ⟨before, last, rfl, hlast, hbefore⟩ := hend
  have htokens : before ++ [last] = ts ++ g.tokens := hshows.tokens
  -- The parser stops at the only end of the source, which is the last token.
  rcases List.eq_nil_or_concat g.tokens with hnil | ⟨rest, final, hconcat⟩
  · have hmem : last ∈ ts := by
      rw [hnil, List.append_nil] at htokens
      simp [← htokens]
    exact absurd hlast (hts.balanced.kind_ne_sourceEnd last hmem)
  · rw [List.concat_eq_append] at hconcat
    rw [hconcat, ← List.append_assoc, List.append_singleton_inj] at htokens
    obtain ⟨rfl, rfl⟩ := htokens
    cases rest with
    | nil => exact .statements (by simpa using hts) hlast
    | cons t rest =>
      have hcurrent' : g.current = t := by simp [Feed.current, hconcat]
      rw [hcurrent'] at hcurrent
      exact absurd hcurrent (hbefore t (by simp))

/-- No statement is found where an output starts with an integer that is too long. -/
theorem parseTokens_tooLong {o t : Token} {rest : List Token} {most : Nat}
    (ho : o.kind = .sign .output) (ht : t.WellMade) (hkind : t.kind = .integer)
    (hmost : digits.exceeded? t.text.length = some most) :
    parseTokens ⟨o :: t :: rest, none⟩ digits
      = ⟨[], some (.badInteger (.tooLong most t.text.length))⟩ := by
  let ending := Feed.endAfter (o :: t :: rest)
  have hsign : Feed.Shows ⟨o :: t :: rest, ending, none, digits⟩ [o]
      ⟨t :: rest, ending, none, digits⟩ := ⟨rfl, rfl, rfl, rfl, by simp⟩
  have hinteger : Feed.Shows ⟨t :: rest, ending, none, digits⟩ [t]
      ⟨rest, ending, none, digits⟩ := ⟨rfl, rfl, rfl, rfl, by simp⟩
  have hexpression := Parser.expressionAt_tooLong hinteger ht hkind hmost .disjunction
  have houtput : Parser.statement ⟨o :: t :: rest, ending, none, digits⟩
      = .error (.badInteger (.tooLong most t.text.length)) := by
    rw [Parser.statement, hsign.current, ho]
    simp only [Parser.output, Feed.take_complete hsign, bind, Except.bind, Parser.expression,
      hexpression]
  rw [parseTokens, Feed.start_of_hasTwo rfl]
  dsimp only
  rw [Parser.statementsFrom, hsign.current, ho, if_neg (by simp), houtput]

/-- The parser accepts exactly what the grammar derives and what has no integer that is too long,
and builds the one tree of it. -/
theorem parseTokens_eq_iff_grammar {tokens : List Token} (hend : EndsOnce tokens)
    (hmade : ∀ t ∈ tokens, t.WellMade) (digits : DigitLimit) (ss : List Stmt) :
    (parseTokens ⟨tokens, none⟩ digits = ⟨ss, none⟩ ↔
      Grammar.Program .lifted tokens ss ∧ Grammar.Admitted digits tokens) ∧
      ∀ other, Grammar.Program .lifted tokens ss → Grammar.Program .lifted tokens other →
        other = ss := by
  refine ⟨?_, fun other h hother => ?_⟩
  · rw [← program_iff_lifted]
    exact ⟨grammar_of_parseTokens hend hmade, parseTokens_of_grammar hmade⟩
  · have heq := (parseTokens_of_grammar hmade hother).symm.trans (parseTokens_of_grammar hmade h)
    exact (Listing.mk.inj heq).1

/-- The tokens of a loop `while x < 2` with the body `x = -x + 1`. -/
def loopTokens : List Token :=
  [⟨.keyword .whileWord, "while", 1, 1, 6⟩, ⟨.name, "x", 1, 7, 8⟩, ⟨.sign .less, "<", 1, 9, 10⟩,
    ⟨.integer, "2", 1, 11, 12⟩, ⟨.lineEnd, "\n", 1, 12, 13⟩, ⟨.indent, "", 2, 1, 3⟩,
    ⟨.name, "x", 2, 3, 4⟩, ⟨.sign .assign, "=", 2, 5, 6⟩, ⟨.sign .minus, "-", 2, 7, 8⟩,
    ⟨.name, "x", 2, 8, 9⟩, ⟨.sign .plus, "+", 2, 10, 11⟩, ⟨.integer, "1", 2, 12, 13⟩,
    ⟨.lineEnd, "\n", 2, 13, 14⟩, ⟨.dedent, "", 3, 1, 2⟩, ⟨.sourceEnd, "", 3, 1, 2⟩]

/-- The parser reads the loop, and nothing else, from its tokens. -/
theorem parseTokens_loopTokens :
    EndsOnce loopTokens ∧ (∀ t ∈ loopTokens, t.WellMade) ∧
      ∃ condition body span,
        parseTokens ⟨loopTokens, none⟩ .standard = ⟨[.loop condition body span], none⟩ ∧
          ∀ other, Grammar.Program .lifted loopTokens other →
            other = [.loop condition body span] := by
  have hend : EndsOnce loopTokens :=
    ⟨loopTokens.dropLast, ⟨.sourceEnd, "", 3, 1, 2⟩, rfl, rfl, by decide⟩
  have hmade : ∀ t ∈ loopTokens, t.WellMade := by
    simp only [loopTokens, List.forall_mem_cons]
    refine ⟨⟨rfl, by decide⟩, ⟨trivial, by decide⟩, ⟨rfl, by decide⟩,
      ⟨⟨by decide, List.all_eq_true.mp rfl⟩, by decide⟩, ⟨trivial, by decide⟩,
      ⟨trivial, by decide⟩, ?_⟩
    refine ⟨⟨trivial, by decide⟩, ⟨rfl, by decide⟩, ⟨rfl, by decide⟩, ⟨trivial, by decide⟩,
      ⟨rfl, by decide⟩, ⟨⟨by decide, List.all_eq_true.mp rfl⟩, by decide⟩, ?_⟩
    exact ⟨⟨trivial, by decide⟩, ⟨trivial, by decide⟩, ⟨trivial, by decide⟩, by simp⟩
  have hshort : ∀ t ∈ loopTokens, t.text.length ≤ 640 := by decide
  have hadmitted : Admitted .standard loopTokens :=
    fun t ht _ => DigitLimit.admits_of_le (hshort t ht) .standard
  have hcondition : Expression .lifted .disjunction ((loopTokens.drop 1).take 3)
      (.binary .less _ _ _) :=
    .whole (.binary rfl (Level.precedes_tighter (by decide)) rfl
      (.lift (.variable rfl) _ (by decide))
      (.lift (.shortInteger rfl (by decide) (by decide)) _ (by decide)))
  have hleft : Expression .lifted .negation ((loopTokens.drop 8).take 2) (.unary .negate _ _) :=
    .unary rfl rfl (.lift (.variable rfl) _ (by decide))
  have hvalue : Expression .lifted .disjunction ((loopTokens.drop 8).take 4)
      (.binary .add _ _ _) :=
    .whole (.binary rfl (Level.precedes_tighter (by decide)) rfl
      (.lift hleft _ (by decide))
      (.lift (.shortInteger rfl (by decide) (by decide)) _ (by decide)))
  have hbody : Block .lifted ((loopTokens.drop 5).take 9) _ :=
    .indented rfl rfl (.cons (.assign rfl rfl hvalue rfl) .nil)
  have hderived : ∃ condition body span,
      Grammar.Program .lifted loopTokens [.loop condition body span] :=
    ⟨_, _, _, .statements (.cons (.loop rfl hcondition rfl hbody) .nil) rfl⟩
  obtain ⟨condition, body, span, hderived⟩ := hderived
  have hall := parseTokens_eq_iff_grammar hend hmade .standard [.loop condition body span]
  exact ⟨hend, hmade, condition, body, span, hall.1.mpr ⟨hderived, hadmitted⟩,
    fun other => hall.2 other hderived⟩

/-- The number 1 behind some zeros. -/
def paddedOne (zeros : Nat) : String := String.ofList (List.replicate zeros '0' ++ ['1'])

private theorem length_paddedOne (zeros : Nat) : (paddedOne zeros).length = zeros + 1 := by
  rw [paddedOne, String.length_ofList, List.length_append, List.length_replicate]
  rfl

private theorem isDigits_paddedOne (zeros : Nat) : Numeral.IsDigits (paddedOne zeros).toList := by
  rw [paddedOne, String.toList_ofList]
  refine ⟨by simp, List.forall_mem_append.mpr ⟨?_, List.forall_mem_singleton.mpr rfl⟩⟩
  exact fun _ => Numeral.isAsciiDigit_of_mem_zeros

private theorem value_paddedOne (zeros : Nat) : Numeral.value (paddedOne zeros).toList = 1 := by
  rw [paddedOne, String.toList_ofList, Numeral.value_append, Numeral.value_replicate_zero]
  rfl

/-- The tokens of an output of the number 1 behind some zeros. -/
def paddedTokens (zeros : Nat) : List Token :=
  [⟨.sign .output, "<<", 1, 1, 3⟩, ⟨.integer, paddedOne zeros, 1, 4, zeros + 5⟩,
    ⟨.lineEnd, "\n", 1, zeros + 5, zeros + 6⟩, ⟨.sourceEnd, "", 2, 1, 2⟩]

private theorem wellMade_of_mem_paddedTokens (zeros : Nat) :
    ∀ t ∈ paddedTokens zeros, t.WellMade := by
  simp only [paddedTokens, List.forall_mem_cons]
  exact ⟨⟨rfl, by decide⟩, ⟨isDigits_paddedOne zeros, by simp only []; omega⟩,
    ⟨trivial, by simp only []; omega⟩, ⟨trivial, by decide⟩, by simp⟩

private theorem program_paddedTokens (zeros : Nat) :
    ∃ ss, Grammar.Program .lifted (paddedTokens zeros) ss := by
  have hnumber : Expression .lifted .primary
      [⟨.integer, paddedOne zeros, 1, 4, (zeros : Int) + 5⟩] _ :=
    .integer rfl (DigitLimit.admits_lifted _) ((value_paddedOne zeros).trans_le (by decide))
  exact ⟨_, .statements (.cons (.output rfl hnumber.whole rfl) .nil) rfl⟩

/-- Under the standard bound the parser does not accept all that the grammar derives: it stops at
the number 1 if there are too many zeros in front of it. -/
theorem parseTokens_paddedTokens :
    EndsOnce (paddedTokens 4300) ∧ (∀ t ∈ paddedTokens 4300, t.WellMade) ∧
      (∃ ss, Grammar.Program .lifted (paddedTokens 4300) ss) ∧
      parseTokens ⟨paddedTokens 4300, none⟩ .standard
        = ⟨[], some (.badInteger (.tooLong 4300 4301))⟩ := by
  have hend : EndsOnce (paddedTokens 4300) :=
    ⟨(paddedTokens 4300).dropLast, ⟨.sourceEnd, "", 2, 1, 2⟩, rfl, rfl, by simp [paddedTokens]⟩
  have hmost : DigitLimit.standard.exceeded? (paddedOne 4300).length = some 4300 := by
    rw [length_paddedOne]
    rfl
  have hstops : parseTokens ⟨paddedTokens 4300, none⟩ .standard
      = ⟨[], some (.badInteger (.tooLong 4300 (paddedOne 4300).length))⟩ :=
    parseTokens_tooLong rfl (wellMade_of_mem_paddedTokens 4300 _ (by simp [paddedTokens])) rfl hmost
  rw [length_paddedOne] at hstops
  exact ⟨hend, wellMade_of_mem_paddedTokens 4300, program_paddedTokens 4300, hstops⟩

end DialogScript
