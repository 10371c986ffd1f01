import DialogScript.Proofs.Parsing.Expressions

/-!
# Between statements

Where statements and headers can stand. The tokens of a statement close the blocks that they open
(`Balanced`). The parser asks for a statement, or for the `else` of a choice, behind complete
statements and behind headers whose indented blocks are still open (`Grammar.Leads`); at such a
place at least as many blocks were opened as were closed. What it stops at, if it does not come to
the end, is one of four things (`Feed.Stops`).
-/

namespace DialogScript

open Grammar

variable {digits : DigitLimit}

/-! ### Blocks that are closed -/

/-- Tokens that close as many blocks as they open, and that do not end the source. -/
structure Balanced (ts : List Token) : Prop where
  blocks : blocksOpened ts = blocksClosed ts
  kind_ne_sourceEnd : ∀ t ∈ ts, t.kind ≠ .sourceEnd

namespace Balanced

variable {ts us : List Token} {t o c : Token}

theorem nil : Balanced [] := ⟨rfl, by simp⟩

theorem append (hts : Balanced ts) (hus : Balanced us) : Balanced (ts ++ us) where
  blocks := by rw [blocksOpened_append, blocksClosed_append, hts.blocks, hus.blocks]
  kind_ne_sourceEnd := List.forall_mem_append.mpr ⟨hts.kind_ne_sourceEnd, hus.kind_ne_sourceEnd⟩

/-- Tokens without layout open and close nothing. -/
theorem own (h : ∀ t ∈ ts, t.kind.isLayout = false) : Balanced ts := by
  have hne : ∀ kind : TokenKind, kind.isLayout = true → ∀ t ∈ ts, t.kind ≠ kind := by
    rintro kind hkind t ht rfl
    rw [h t ht] at hkind
    cases hkind
  refine ⟨?_, hne _ rfl⟩
  rw [blocksOpened_eq_zero (hne _ rfl), blocksClosed_eq_zero (hne _ rfl)]

theorem lineEnd (h : t.kind = .lineEnd) : Balanced [t] :=
  ⟨by simp [blocksOpened, blocksClosed, h], by simp [h]⟩

/-- Balanced tokens between an indent and a dedent. -/
theorem indented (ho : o.kind = .indent) (hc : c.kind = .dedent) (h : Balanced ts) :
    Balanced (o :: ts ++ [c]) where
  blocks := by
    have hblocks := h.blocks
    simp only [blocksOpened, blocksClosed] at hblocks
    simp [blocksOpened, blocksClosed, ho, hc, hblocks]
  kind_ne_sourceEnd := by
    simpa [ho, hc, or_imp, forall_and] using h.kind_ne_sourceEnd

end Balanced

namespace Grammar

/-- The tokens of a header up to the end of its line, with the span of its condition or of its
`else`. -/
inductive Header (digits : DigitLimit) : BodyOwner → List Token → Span → Prop
  | loop {keyword : Token} {ts : List Token} {e : Expr}
      (hkeyword : keyword.kind = .keyword .whileWord) (h : Expression digits .disjunction ts e) :
      Header digits .loop (keyword :: ts) e.span
  | branch {keyword : Token} {ts : List Token} {e : Expr}
      (hkeyword : keyword.kind = .keyword .ifWord) (h : Expression digits .disjunction ts e) :
      Header digits .branch (keyword :: ts) e.span
  | elseBranch {keyword second : Token} {ts : List Token} {e : Expr}
      (hkeyword : keyword.kind = .keyword .elseWord) (hsecond : second.kind = .keyword .ifWord)
      (h : Expression digits .disjunction ts e) :
      Header digits .elseBranch (keyword :: second :: ts) e.span
  | otherwise {keyword : Token} (hkeyword : keyword.kind = .keyword .elseWord) :
      Header digits .otherwise [keyword] keyword.extent

/-- The tokens of a header are a line's own. -/
theorem Header.own {owner : BodyOwner} {ts : List Token} {span : Span}
    (h : Header digits owner ts span) : ∀ t ∈ ts, t.kind.isLayout = false := by
  cases h with
  | loop hkeyword h | branch hkeyword h =>
    exact List.forall_mem_cons.mpr ⟨by rw [hkeyword]; rfl, h.own⟩
  | elseBranch hkeyword hsecond h =>
    exact List.forall_mem_cons.mpr ⟨by rw [hkeyword]; rfl,
      List.forall_mem_cons.mpr ⟨by rw [hsecond]; rfl, h.own⟩⟩
  | otherwise hkeyword => exact List.forall_mem_singleton.mpr (by rw [hkeyword]; rfl)

/-- The tokens of a header, of the end of its line and of its body are balanced if those of the
body are. -/
theorem Header.balanced {owner : BodyOwner} {ts us : List Token} {span : Span} {last : Token}
    (h : Header digits owner ts span) (hlast : last.kind = .lineEnd) (hus : Balanced us) :
    Balanced (ts ++ last :: us) :=
  (Balanced.own h.own).append ((Balanced.lineEnd hlast).append hus)

mutual

/-- A statement closes the blocks that it opens. -/
theorem Statement.balanced {ts : List Token} {s : Stmt} (h : Statement digits ts s) :
    Balanced ts := by
  match h with
  | .assign hname hsign he hlast =>
    refine .append (.own ?_) (.lineEnd hlast)
    simpa [hname, hsign, TokenKind.isLayout] using he.own
  | .output hsign he hlast =>
    refine .append (.own ?_) (.lineEnd hlast)
    simpa [hsign, TokenKind.isLayout] using he.own
  | @Statement.input _ sign name _ hsign hname hlast =>
    have hown : ∀ t ∈ [sign, name], t.kind.isLayout = false := by
      simp [hsign, hname, TokenKind.isLayout]
    exact (Balanced.own hown).append (.lineEnd hlast)
  | @Statement.typedInput _ sign name link word _ _ hsign hname hlink _ hword _ hlast =>
    have hown : ∀ t ∈ [sign, name, link, word], t.kind.isLayout = false := by
      simp [hsign, hname, hlink, hword, TokenKind.isLayout]
    exact (Balanced.own hown).append (.lineEnd hlast)
  | .block h => exact h.balanced
  | .loop hkeyword he hlast hbody => exact (Header.loop hkeyword he).balanced hlast hbody.balanced
  | .choice hkeyword he hlast hbody hrest =>
    exact ((Header.branch hkeyword he).balanced hlast hbody.balanced).append hrest.balanced
termination_by structural h

theorem Statements.balanced {ts : List Token} {ss : List Stmt} (h : Statements digits ts ss) :
    Balanced ts := by
  match h with
  | .nil => exact .nil
  | .cons h hrest => exact h.balanced.append hrest.balanced
termination_by structural h

theorem Block.balanced {ts : List Token} {s : Stmt} (h : Block digits ts s) : Balanced ts := by
  match h with
  | .indented ho hc h => exact h.balanced.indented ho hc
termination_by structural h

theorem ElseParts.balanced {ts : List Token} {others : List Stmt} {otherwise : Stmt}
    (h : ElseParts digits ts others otherwise) : Balanced ts := by
  match h with
  | .nothing => exact .nil
  | .otherwise hkeyword hlast hbody =>
    have hheader : Header digits .otherwise [_] _ := .otherwise hkeyword
    exact hheader.balanced hlast hbody.balanced
  | .branch hkeyword hsecond he hlast hbody hrest =>
    exact ((Header.elseBranch hkeyword hsecond he).balanced hlast hbody.balanced).append
      hrest.balanced
termination_by structural h

end

/-! ### Where statements stand -/

/-- Tokens of a program up to a place where a header can stand: complete statements, and headers
each of which is followed by an indented block, of which the last ones may still be open. -/
inductive Leads (digits : DigitLimit) : List Token → Prop
  | nil : Leads digits []
  | statement {ts us : List Token} {s : Stmt} (h : Statement digits ts s)
      (hrest : Leads digits us) : Leads digits (ts ++ us)
  | block {indent : Token} {us : List Token} (hindent : indent.kind = .indent)
      (hrest : Leads digits us) : Leads digits (indent :: us)
  | header {owner : BodyOwner} {ts us : List Token} {span : Span} {last indent : Token}
      (h : Header digits owner ts span) (hlast : last.kind = .lineEnd)
      (hindent : indent.kind = .indent) (hrest : Leads digits (indent :: us)) :
      Leads digits (ts ++ last :: indent :: us)

namespace Leads

variable {ts us : List Token}

theorem append (hts : Leads digits ts) (hus : Leads digits us) : Leads digits (ts ++ us) := by
  induction hts with
  | nil => exact hus
  | statement h _ ih =>
    rw [List.append_assoc]
    exact .statement h ih
  | block hindent _ ih => exact .block hindent ih
  | header h hlast hindent _ ih =>
    rw [List.append_assoc]
    exact .header h hlast hindent ih

/-- Another statement can stand behind complete ones. -/
theorem of_statements {tokens : List Token} {ss : List Stmt} (h : Statements digits tokens ss) :
    Leads digits tokens := by
  match h with
  | .nil => exact .nil
  | .cons h hrest => exact .statement h (of_statements hrest)
termination_by structural h

theorem of_statement {s : Stmt} (h : Statement digits ts s) : Leads digits ts := by
  simpa using Leads.statement h .nil

/-- A statement can stand where a block starts. -/
theorem indent {t : Token} (h : Leads digits ts) (ht : t.kind = .indent) :
    Leads digits (ts ++ [t]) :=
  h.append (.block ht .nil)

/-- Behind a header and its whole body. -/
theorem of_branch {owner : BodyOwner} {span : Span} {last : Token} {s : Stmt}
    (hheader : Header digits owner ts span) (hlast : last.kind = .lineEnd)
    (hbody : Block digits us s) : Leads digits (ts ++ last :: us) := by
  have hblock : Leads digits us := of_statement (.block hbody)
  cases hbody with
  | indented ho hc hts => exact .header hheader hlast ho hblock

/-- Where a header can stand, at least as many blocks were opened as were closed. -/
theorem closed_le_opened (h : Leads digits ts) : blocksClosed ts ≤ blocksOpened ts := by
  induction h with
  | nil => exact Nat.le_refl 0
  | statement h _ ih =>
    rw [blocksClosed_append, blocksOpened_append, h.balanced.blocks]
    exact Nat.add_le_add_left ih _
  | block hindent _ ih =>
    simp only [blocksClosed, blocksOpened, List.countP_cons, hindent] at ih ⊢
    exact Nat.le_succ_of_le ih
  | header h hlast hindent _ ih =>
    have hline := h.balanced hlast .nil
    rw [List.append_cons, blocksClosed_append, blocksOpened_append, hline.blocks]
    exact Nat.add_le_add_left ih _

end Leads

end Grammar

/-! ### What the parser stops at -/

namespace Feed

/-- What the parser stops at in front of the end of the source. -/
inductive Stops (f : Feed) : ParseError → Prop
  /-- Something within a line, or a token with which nothing can start. -/
  | snag {e : ParseError} (h : f.Snags e) : Stops f e
  /-- A header that nothing indented follows. -/
  | body {before header : List Token} {owner : BodyOwner} {span : Span} {g : Feed}
      (hbefore : Leads f.digits before) (hheader : Header f.digits owner header span)
      (hshows : f.Shows (before ++ header) g) (hline : g.current.kind = .lineEnd)
      (hnext : g.following.kind ≠ .indent) :
      Stops f (.malformed ⟨.missingBody owner, span.after⟩)
  /-- The end of the source within a block. -/
  | unclosed {before : List Token} {g : Feed} (hshows : f.Shows before g)
      (hopen : blocksClosed before < blocksOpened before) (hend : g.current.kind = .sourceEnd) :
      Stops f (g.complaint (.expected "end of block" g.current))
  /-- The end of a block that was not opened. -/
  | unopened {before : List Token} {g : Feed} (hshows : f.Shows before g)
      (hclosed : blocksOpened before = blocksClosed before) (hend : g.current.kind = .dedent) :
      Stops f (g.complaint (.unexpected g.current))

/-- A feed that comes after tokens of another one up to a place where a statement can stand. -/
structure Between (f : Feed) (ts : List Token) (g : Feed) : Prop where
  made : g.WellMade
  shows : f.Shows ts g
  leads : Leads f.digits ts

variable {f g k : Feed} {ts us : List Token}

/-- A feed stays between statements while it shows tokens behind which a statement can stand. -/
theorem Between.next (h : f.Between ts g) (hshows : g.Shows us k) (hus : Leads f.digits us) :
    f.Between (ts ++ us) k :=
  ⟨h.made.shows hshows, h.shows.trans hshows, h.leads.append hus⟩

/-- A token that closes no block can be complained about where a statement should start. -/
theorem Between.complaint (h : f.Between ts g) (hclosing : g.current.isClosing = false)
    {cause : SyntaxCause} (hcause : cause.asksForBody = false) : f.Stops (g.complaint cause) :=
  .snag ⟨ts, g, h.shows, .current hcause (.inr hclosing)⟩

end Feed

end DialogScript
