import DialogScript.Proofs.Lexing.SideBySide
import DialogScript.Proofs.Parsing.Statements

/-!
# Other literals in a program

The place of a literal can be taken by every primary expression: a program in which the tokens of
some integers are replaced by the tokens of other expressions is a program again
(`Program.rewrites`). An output that stands among the tokens of a program is a statement of it,
however deep it is nested (`Program.outputsIn`).
-/

namespace DialogScript

open Grammar

variable {digits : DigitLimit}

/-- A statement is another one or nested in it. -/
inductive Stmt.Inside (part : Stmt) : Stmt → Prop
  | self : Inside part part
  | block {s : Stmt} {body : List Stmt} {span : Span} (hs : s ∈ body) (h : Inside part s) :
      Inside part (.block body span)
  | loop {condition : Expr} {body : Stmt} {span : Span} (h : Inside part body) :
      Inside part (.loop condition body span)
  | branch {condition : Expr} {body : Stmt} {span : Span} (h : Inside part body) :
      Inside part (.branch condition body span)
  | first {first otherwise : Stmt} {others : List Stmt} {span : Span} (h : Inside part first) :
      Inside part (.choice first others otherwise span)
  | other {first otherwise s : Stmt} {others : List Stmt} {span : Span} (hs : s ∈ others)
      (h : Inside part s) : Inside part (.choice first others otherwise span)
  | otherwise {first otherwise : Stmt} {others : List Stmt} {span : Span}
      (h : Inside part otherwise) : Inside part (.choice first others otherwise span)

/-! ### Replaced tokens -/

/-- The tokens `us` are the tokens `ts` in other places, with primary expressions for some of the
integers. -/
inductive Rewrites (digits : DigitLimit) : List Token → List Token → Prop
  | nil : Rewrites digits [] []
  | same {t u : Token} {ts us : List Token} (h : u.lexeme = t.lexeme)
      (hrest : Rewrites digits ts us) : Rewrites digits (t :: ts) (u :: us)
  | literal {t : Token} {new ts us : List Token} {e : Expr} (ht : t.kind = .integer)
      (hnew : Expression digits .primary new e) (hrest : Rewrites digits ts us) :
      Rewrites digits (t :: ts) (new ++ us)

namespace Rewrites

variable {t : Token} {ts us ts' us' : List Token}

/-- Tokens with the same kinds and texts are rewritten, whatever their places. -/
theorem of_sameLexemes (h : SameLexemes ts us) : Rewrites digits ts us := by
  induction ts generalizing us with
  | nil =>
    rw [List.map_eq_nil_iff.mp h]
    exact .nil
  | cons t ts ih =>
    cases us with
    | nil => cases h
    | cons u us =>
      obtain ⟨hhead, htail⟩ := List.cons.inj h
      exact .same hhead (ih htail)

theorem append (h : Rewrites digits ts us) (h' : Rewrites digits ts' us') :
    Rewrites digits (ts ++ ts') (us ++ us') := by
  induction h with
  | nil => exact h'
  | same h _ ih => exact .same h ih
  | literal ht hnew _ ih =>
    rw [List.append_assoc]
    exact .literal ht hnew ih

/-- What replaces a list of tokens falls apart like the list. -/
theorem exists_append (h : Rewrites digits (ts ++ ts') us) :
    ∃ vs vs', us = vs ++ vs' ∧ Rewrites digits ts vs ∧ Rewrites digits ts' vs' := by
  induction ts generalizing us with
  | nil => exact ⟨[], us, rfl, .nil, h⟩
  | cons t ts ih =>
    cases h with
    | same h hrest =>
      obtain ⟨vs, vs', rfl, hvs, hvs'⟩ := ih hrest
      exact ⟨_ :: vs, vs', rfl, .same h hvs, hvs'⟩
    | @literal _ new _ _ _ ht hnew hrest =>
      obtain ⟨vs, vs', rfl, hvs, hvs'⟩ := ih hrest
      exact ⟨new ++ vs, vs', (List.append_assoc ..).symm, .literal ht hnew hvs, hvs'⟩

/-- No tokens are rewritten as none. -/
theorem eq_nil (h : Rewrites digits [] us) : us = [] := by
  cases h
  rfl

/-- A token that is no integer stays. -/
theorem exists_cons (h : Rewrites digits (t :: ts) us) (ht : t.kind ≠ .integer) :
    ∃ u vs, us = u :: vs ∧ u.kind = t.kind ∧ u.text = t.text ∧ Rewrites digits ts vs := by
  cases h with
  | same h hrest =>
    obtain ⟨hkind, htext⟩ := Prod.mk.inj h
    exact ⟨_, _, rfl, hkind, htext, hrest⟩
  | literal hkind => exact absurd hkind ht

private theorem exists_singleton (h : Rewrites digits [t] us) (ht : t.kind ≠ .integer) :
    ∃ u, us = [u] ∧ u.kind = t.kind ∧ u.text = t.text := by
  obtain ⟨u, vs, rfl, hkind, htext, hrest⟩ := h.exists_cons ht
  exact ⟨u, by rw [hrest.eq_nil], hkind, htext⟩

/-- Tokens between two others. -/
theorem exists_enclosed {o c : Token} (h : Rewrites digits (o :: ts ++ [c]) us)
    (ho : o.kind ≠ .integer) (hc : c.kind ≠ .integer) :
    ∃ o' vs c', us = o' :: vs ++ [c'] ∧ o'.kind = o.kind ∧ c'.kind = c.kind ∧
      Rewrites digits ts vs := by
  rw [List.cons_append] at h
  obtain ⟨o', vs, rfl, hopen, -, hrest⟩ := h.exists_cons ho
  obtain ⟨vs, vs', rfl, hvs, hlast⟩ := hrest.exists_append
  obtain ⟨c', rfl, hclose, -⟩ := hlast.exists_singleton hc
  exact ⟨o', vs, c', by simp, hopen, hclose, hvs⟩

end Rewrites

namespace Grammar

mutual

/-- With other expressions for some of its integers, an expression is an expression. -/
theorem Expression.rewrites {level : Level} {ts : List Token} {e : Expr}
    (h : Expression digits level ts e) {us : List Token} (hus : Rewrites digits ts us) :
    ∃ e', Expression digits level us e' := by
  match h with
  | .tighter hnext h =>
    obtain ⟨e', h'⟩ := h.rewrites hus
    exact ⟨e', .tighter hnext h'⟩
  | .binary hlevel hnext hop hl hr =>
    rename_i op t left right l r
    have ht : t.kind ≠ .integer := by
      rw [hop]
      cases op <;> simp [BinaryOperator.tokenKind]
    obtain ⟨vs, vs', rfl, hleft, hrest⟩ := hus.exists_append
    obtain ⟨u, vs', rfl, hkind, -, hright⟩ := hrest.exists_cons ht
    obtain ⟨l', hl'⟩ := hl.rewrites hleft
    obtain ⟨r', hr'⟩ := hr.rewrites hright
    exact ⟨_, .binary hlevel hnext (hkind.trans hop) hl' hr'⟩
  | .unary hlevel hop h =>
    rename_i op t ts e
    have ht : t.kind ≠ .integer := by
      rw [hop]
      cases op <;> simp [UnaryOperator.tokenKind]
    obtain ⟨u, vs, rfl, hkind, -, hrest⟩ := hus.exists_cons ht
    obtain ⟨e', h'⟩ := h.rewrites hrest
    exact ⟨_, .unary hlevel (hkind.trans hop) h'⟩
  | .integer hkind hadmits hrange =>
    -- The one place where another expression may stand.
    cases hus with
    | same h hrest =>
      obtain ⟨hkind', htext⟩ := Prod.mk.inj h
      rw [hrest.eq_nil]
      exact ⟨_, .integer (hkind'.trans hkind) (htext ▸ hadmits) (htext ▸ hrange)⟩
    | literal _ hnew hrest =>
      rw [hrest.eq_nil, List.append_nil]
      exact ⟨_, hnew⟩
  | .float hkind htext hwhole hfraction =>
    obtain ⟨u, rfl, hkind', htext'⟩ := hus.exists_singleton (by simp [hkind])
    exact ⟨_, .float (hkind'.trans hkind) (htext' ▸ htext) hwhole hfraction⟩
  | .text hkind =>
    obtain ⟨u, rfl, hkind', -⟩ := hus.exists_singleton (by simp [hkind])
    exact ⟨_, .text (hkind'.trans hkind)⟩
  | .trueWord hkind =>
    obtain ⟨u, rfl, hkind', -⟩ := hus.exists_singleton (by simp [hkind])
    exact ⟨_, .trueWord (hkind'.trans hkind)⟩
  | .falseWord hkind =>
    obtain ⟨u, rfl, hkind', -⟩ := hus.exists_singleton (by simp [hkind])
    exact ⟨_, .falseWord (hkind'.trans hkind)⟩
  | .variable hkind =>
    obtain ⟨u, rfl, hkind', -⟩ := hus.exists_singleton (by simp [hkind])
    exact ⟨_, .variable (hkind'.trans hkind)⟩
  | .parenthesized ho hc h =>
    obtain ⟨o', vs, c', rfl, hopen, hclose, hvs⟩ :=
      hus.exists_enclosed (by simp [ho]) (by simp [hc])
    obtain ⟨e', h'⟩ := h.rewrites hvs
    exact ⟨_, .parenthesized (hopen.trans ho) (hclose.trans hc) h'⟩
  | .string ho hc h =>
    obtain ⟨o', vs, c', rfl, hopen, hclose, hvs⟩ :=
      hus.exists_enclosed (by simp [ho]) (by simp [hc])
    obtain ⟨pieces, h'⟩ := h.rewrites hvs
    exact ⟨_, .string (hopen.trans ho) (hclose.trans hc) h'⟩
termination_by structural h

theorem Pieces.rewrites {ts : List Token} {pieces : List Piece} (h : Pieces digits ts pieces)
    {us : List Token} (hus : Rewrites digits ts us) : ∃ pieces', Pieces digits us pieces' := by
  match h with
  | .nil =>
    rw [hus.eq_nil]
    exact ⟨_, .nil⟩
  | .fragment hkind h =>
    obtain ⟨u, vs, rfl, hkind', -, hrest⟩ := hus.exists_cons (by simp [hkind])
    obtain ⟨pieces', h'⟩ := h.rewrites hrest
    exact ⟨_, .fragment (hkind'.trans hkind) h'⟩
  | .hole ho hc he h =>
    rw [List.cons_append] at hus
    obtain ⟨o', vs, rfl, hopen, -, hrest⟩ := hus.exists_cons (by simp [ho])
    obtain ⟨vs, vs', rfl, hvs, hrest'⟩ := hrest.exists_append
    obtain ⟨c', vs', rfl, hclose, -, hmore⟩ := hrest'.exists_cons (by simp [hc])
    obtain ⟨e', he'⟩ := he.rewrites hvs
    obtain ⟨pieces', h'⟩ := h.rewrites hmore
    exact ⟨_, .hole (hopen.trans ho) (hclose.trans hc) he' h'⟩
termination_by structural h

end

mutual

theorem Statement.rewrites {ts : List Token} {s : Stmt} (h : Statement digits ts s)
    {us : List Token} (hus : Rewrites digits ts us) : ∃ s', Statement digits us s' := by
  match h with
  | .assign hname hsign he hlast =>
    obtain ⟨name', vs, last', rfl, hname', hlast', hvs⟩ :=
      hus.exists_enclosed (by simp [hname]) (by simp [hlast])
    obtain ⟨sign', vs, rfl, hsign', -, hvs⟩ := hvs.exists_cons (by simp [hsign])
    obtain ⟨e', he'⟩ := he.rewrites hvs
    exact ⟨_, .assign (hname'.trans hname) (hsign'.trans hsign) he' (hlast'.trans hlast)⟩
  | .output hsign he hlast =>
    obtain ⟨sign', vs, last', rfl, hsign', hlast', hvs⟩ :=
      hus.exists_enclosed (by simp [hsign]) (by simp [hlast])
    obtain ⟨e', he'⟩ := he.rewrites hvs
    exact ⟨_, .output (hsign'.trans hsign) he' (hlast'.trans hlast)⟩
  | .input hsign hname hlast =>
    obtain ⟨sign', vs, rfl, hsign', -, hvs⟩ := hus.exists_cons (by simp [hsign])
    obtain ⟨name', vs, rfl, hname', -, hvs⟩ := hvs.exists_cons (by simp [hname])
    obtain ⟨last', rfl, hlast', -⟩ := hvs.exists_singleton (by simp [hlast])
    exact ⟨_, .input (hsign'.trans hsign) (hname'.trans hname) (hlast'.trans hlast)⟩
  | .typedInput hsign hname hlink has hword htype hlast =>
    obtain ⟨sign', vs, rfl, hsign', -, hvs⟩ := hus.exists_cons (by simp [hsign])
    obtain ⟨name', vs, rfl, hname', -, hvs⟩ := hvs.exists_cons (by simp [hname])
    obtain ⟨link', vs, rfl, hlink', has', hvs⟩ := hvs.exists_cons (by simp [hlink])
    obtain ⟨word', vs, rfl, hword', htype', hvs⟩ := hvs.exists_cons (by simp [hword])
    obtain ⟨last', rfl, hlast', -⟩ := hvs.exists_singleton (by simp [hlast])
    exact ⟨_, .typedInput (hsign'.trans hsign) (hname'.trans hname) (hlink'.trans hlink)
      (has'.trans has) (hword'.trans hword) (htype' ▸ htype) (hlast'.trans hlast)⟩
  | .block h =>
    obtain ⟨s', h'⟩ := h.rewrites hus
    exact ⟨_, .block h'⟩
  | .loop hkeyword he hlast hbody =>
    rw [List.cons_append] at hus
    obtain ⟨keyword', vs, rfl, hkeyword', -, hvs⟩ := hus.exists_cons (by simp [hkeyword])
    obtain ⟨vs, vs', rfl, hcondition, hrest⟩ := hvs.exists_append
    obtain ⟨last', vs', rfl, hlast', -, hvs'⟩ := hrest.exists_cons (by simp [hlast])
    obtain ⟨e', he'⟩ := he.rewrites hcondition
    obtain ⟨body', hbody'⟩ := hbody.rewrites hvs'
    exact ⟨_, .loop (hkeyword'.trans hkeyword) he' (hlast'.trans hlast) hbody'⟩
  | .choice hkeyword he hlast hbody hrest =>
    obtain ⟨vs, more, rfl, hvs, hmore⟩ := hus.exists_append
    rw [List.cons_append] at hvs
    obtain ⟨keyword', vs, rfl, hkeyword', -, hvs⟩ := hvs.exists_cons (by simp [hkeyword])
    obtain ⟨vs, vs', rfl, hcondition, hbelow⟩ := hvs.exists_append
    obtain ⟨last', vs', rfl, hlast', -, hvs'⟩ := hbelow.exists_cons (by simp [hlast])
    obtain ⟨e', he'⟩ := he.rewrites hcondition
    obtain ⟨body', hbody'⟩ := hbody.rewrites hvs'
    obtain ⟨others', otherwise', hrest'⟩ := hrest.rewrites hmore
    exact ⟨_, .choice (hkeyword'.trans hkeyword) he' (hlast'.trans hlast) hbody' hrest'⟩
termination_by structural h

theorem Statements.rewrites {ts : List Token} {ss : List Stmt} (h : Statements digits ts ss)
    {us : List Token} (hus : Rewrites digits ts us) : ∃ ss', Statements digits us ss' := by
  match h with
  | .nil =>
    rw [hus.eq_nil]
    exact ⟨_, .nil⟩
  | .cons h hrest =>
    obtain ⟨vs, vs', rfl, hvs, hvs'⟩ := hus.exists_append
    obtain ⟨s', h'⟩ := h.rewrites hvs
    obtain ⟨ss', hrest'⟩ := hrest.rewrites hvs'
    exact ⟨_, .cons h' hrest'⟩
termination_by structural h

theorem Block.rewrites {ts : List Token} {s : Stmt} (h : Block digits ts s) {us : List Token}
    (hus : Rewrites digits ts us) : ∃ s', Block digits us s' := by
  match h with
  | .indented ho hc h =>
    obtain ⟨o', vs, c', rfl, hopen, hclose, hvs⟩ :=
      hus.exists_enclosed (by simp [ho]) (by simp [hc])
    obtain ⟨body', h'⟩ := h.rewrites hvs
    exact ⟨_, .indented (hopen.trans ho) (hclose.trans hc) h'⟩
termination_by structural h

theorem ElseParts.rewrites {ts : List Token} {others : List Stmt} {otherwise : Stmt}
    (h : ElseParts digits ts others otherwise) {us : List Token} (hus : Rewrites digits ts us) :
    ∃ others' otherwise', ElseParts digits us others' otherwise' := by
  match h with
  | .nothing =>
    rw [hus.eq_nil]
    exact ⟨_, _, .nothing⟩
  | .otherwise hkeyword hlast hbody =>
    obtain ⟨keyword', vs, rfl, hkeyword', -, hvs⟩ := hus.exists_cons (by simp [hkeyword])
    obtain ⟨last', vs, rfl, hlast', -, hvs⟩ := hvs.exists_cons (by simp [hlast])
    obtain ⟨body', hbody'⟩ := hbody.rewrites hvs
    exact ⟨_, _, .otherwise (hkeyword'.trans hkeyword) (hlast'.trans hlast) hbody'⟩
  | .branch hkeyword hsecond he hlast hbody hrest =>
    obtain ⟨vs, more, rfl, hvs, hmore⟩ := hus.exists_append
    rw [List.cons_append, List.cons_append] at hvs
    obtain ⟨keyword', vs, rfl, hkeyword', -, hvs⟩ := hvs.exists_cons (by simp [hkeyword])
    obtain ⟨second', vs, rfl, hsecond', -, hvs⟩ := hvs.exists_cons (by simp [hsecond])
    obtain ⟨vs, vs', rfl, hcondition, hbelow⟩ := hvs.exists_append
    obtain ⟨last', vs', rfl, hlast', -, hvs'⟩ := hbelow.exists_cons (by simp [hlast])
    obtain ⟨e', he'⟩ := he.rewrites hcondition
    obtain ⟨body', hbody'⟩ := hbody.rewrites hvs'
    obtain ⟨others', otherwise', hrest'⟩ := hrest.rewrites hmore
    exact ⟨_, _, .branch (hkeyword'.trans hkeyword) (hsecond'.trans hsecond) he'
      (hlast'.trans hlast) hbody' hrest'⟩
termination_by structural h

end

/-- With other expressions for some of its integers, a program is a program. -/
theorem Program.rewrites {ts us : List Token} {body : List Stmt} (h : Program digits ts body)
    (hus : Rewrites digits ts us) : ∃ body', Program digits us body' := by
  obtain ⟨h, hlast⟩ := h
  obtain ⟨vs, vs', rfl, hvs, hrest⟩ := hus.exists_append
  obtain ⟨last', rfl, hlast', -⟩ := hrest.exists_singleton (by simp [hlast])
  obtain ⟨body', h'⟩ := h.rewrites hvs
  exact ⟨_, .statements h' (hlast'.trans hlast)⟩

/-- The tokens of an expression determine its tree. -/
theorem Expression.unique {ts : List Token} {e e' : Expr} (hmade : ∀ t ∈ ts, t.WellMade)
    (h : Expression digits .disjunction ts e) (h' : Expression digits .disjunction ts e') :
    e = e' := by
  let last : Token := ⟨.lineEnd, "\n", 1, 1, 2⟩
  have hshows : Feed.Shows ⟨ts ++ [last], last, none, digits⟩ ts ⟨[last], last, none, digits⟩ :=
    ⟨rfl, rfl, rfl, rfl, fun _ hfault => by cases hfault⟩
  obtain ⟨_, hparse⟩ := Parser.expression_complete h rfl hmade hshows rfl
  obtain ⟨_, hparse'⟩ := Parser.expression_complete h' rfl hmade hshows rfl
  rw [hparse] at hparse'
  exact congrArg Prod.fst (Except.ok.inj hparse')

/-! ### Outputs -/

/-- Every sign of an output among the tokens starts one that is in the statements: an expression
and the end of the line follow. -/
def OutputsIn (digits : DigitLimit) (ts : List Token) (ss : List Stmt) : Prop :=
  ∀ o post, o.kind = .sign .output → o :: post <:+ ts →
    ∃ es last more e, post = es ++ last :: more ∧ last.kind = .lineEnd ∧
      Expression digits .disjunction es e ∧
      ∃ s ∈ ss, Stmt.Inside (.output e (o.extent.join e.span)) s

namespace OutputsIn

variable {ts us : List Token} {ss ss' : List Stmt}

private theorem of_forall_ne (h : ∀ t ∈ ts, t.kind ≠ .sign .output) (ss : List Stmt) :
    OutputsIn digits ts ss :=
  fun o _ ho hpost => absurd ho (h o (hpost.subset List.mem_cons_self))

theorem append (h : OutputsIn digits ts ss) (h' : OutputsIn digits us ss') :
    OutputsIn digits (ts ++ us) (ss ++ ss') := by
  rintro o post ho ⟨pre, hpost⟩
  -- The sign stands in the first tokens or in the second ones.
  rcases List.append_eq_append_iff.mp hpost with ⟨own, rfl, hown⟩ | ⟨own, rfl, hown⟩
  · cases own with
    | nil =>
      obtain ⟨es, last, more, e, hes, hlast, he, s, hs, hin⟩ :=
        h' o post ho ⟨[], hown⟩
      exact ⟨es, last, more, e, hes, hlast, he, s, List.mem_append_right ss hs, hin⟩
    | cons x own =>
      obtain ⟨rfl, rfl⟩ := List.cons.inj hown
      obtain ⟨es, last, more, e, rfl, hlast, he, s, hs, hin⟩ := h o own ho ⟨pre, rfl⟩
      exact ⟨es, last, more ++ us, e, by simp, hlast, he, s, List.mem_append_left ss' hs, hin⟩
  · obtain ⟨es, last, more, e, hes, hlast, he, s, hs, hin⟩ := h' o post ho ⟨own, hown.symm⟩
    exact ⟨es, last, more, e, hes, hlast, he, s, List.mem_append_right ss hs, hin⟩

/-- Tokens without an output in front of those of the statements. -/
theorem prepend (hts : ∀ t ∈ ts, t.kind ≠ .sign .output) (h : OutputsIn digits us ss) :
    OutputsIn digits (ts ++ us) ss :=
  (of_forall_ne hts []).append h

/-- The outputs are in other statements if what is inside the first ones is inside those. -/
theorem mono (h : OutputsIn digits ts ss)
    (hss : ∀ s ∈ ss, ∀ part, Stmt.Inside part s → ∃ s' ∈ ss', Stmt.Inside part s') :
    OutputsIn digits ts ss' := by
  intro o post ho hpost
  obtain ⟨es, last, more, e, hes, hlast, he, s, hs, hin⟩ := h o post ho hpost
  exact ⟨es, last, more, e, hes, hlast, he, hss s hs _ hin⟩

end OutputsIn

private theorem Expression.kind_ne_output {level : Level} {ts : List Token} {e : Expr}
    (h : Expression digits level ts e) : ∀ t ∈ ts, t.kind ≠ .sign .output :=
  h.kind_ne rfl

mutual

theorem Statement.outputsIn {ts : List Token} {s : Stmt} (h : Statement digits ts s) :
    OutputsIn digits ts [s] := by
  match h with
  | .assign hname hsign he hlast =>
    refine .of_forall_ne ?_ _
    simpa [hname, hsign, hlast, or_imp, forall_and] using he.kind_ne_output
  | .output hsign he hlast =>
    rename_i sign last ts e
    have hrest : OutputsIn digits (ts ++ [last]) [] := by
      refine .of_forall_ne ?_ _
      simpa [hlast, or_imp, forall_and] using he.kind_ne_output
    intro o post ho hpost
    rw [List.cons_append, List.suffix_cons_iff] at hpost
    rcases hpost with heq | hpost
    · obtain ⟨rfl, rfl⟩ := List.cons.inj heq
      exact ⟨ts, last, [], e, rfl, hlast, he, _, List.mem_singleton_self _, .self⟩
    · obtain ⟨-, -, -, -, -, -, -, s, hs, -⟩ := hrest o post ho hpost
      cases hs
  | .input hsign hname hlast =>
    exact .of_forall_ne (by simp [hsign, hname, hlast]) _
  | .typedInput hsign hname hlink _ hword _ hlast =>
    exact .of_forall_ne (by simp [hsign, hname, hlink, hword, hlast]) _
  | .block h => exact h.outputsIn
  | .loop hkeyword he hlast hbody =>
    rename_i keyword last ts body e s
    have hhead : ∀ t ∈ keyword :: ts ++ [last], t.kind ≠ .sign .output := by
      simpa [hkeyword, hlast, or_imp, forall_and] using he.kind_ne_output
    have hall : OutputsIn digits (keyword :: ts ++ [last] ++ body) [.loop e s keyword.extent] :=
      (hbody.outputsIn.prepend hhead).mono (by simpa using fun part hin => .loop hin)
    simpa using hall
  | .choice hkeyword he hlast hbody hrest =>
    rename_i keyword last ts body rest e s otherwise others
    have hhead : ∀ t ∈ keyword :: ts ++ [last], t.kind ≠ .sign .output := by
      simpa [hkeyword, hlast, or_imp, forall_and] using he.kind_ne_output
    have hall : OutputsIn digits (keyword :: ts ++ [last] ++ (body ++ rest))
        [.choice (.branch e s keyword.extent) others otherwise keyword.extent] := by
      refine ((hbody.outputsIn.append hrest.outputsIn).prepend hhead).mono fun t ht part hin =>
        ⟨_, List.mem_singleton_self _, ?_⟩
      simp only [List.mem_append, List.mem_singleton] at ht
      rcases ht with rfl | hothers | rfl
      · exact .first (.branch hin)
      · exact .other hothers hin
      · exact .otherwise hin
    simpa using hall
termination_by structural h

theorem Statements.outputsIn {ts : List Token} {ss : List Stmt} (h : Statements digits ts ss) :
    OutputsIn digits ts ss := by
  match h with
  | .nil => exact .of_forall_ne (List.forall_mem_nil _) _
  | .cons h hrest => exact h.outputsIn.append hrest.outputsIn
termination_by structural h

theorem Block.outputsIn {ts : List Token} {s : Stmt} (h : Block digits ts s) :
    OutputsIn digits ts [s] := by
  match h with
  | .indented ho hc h =>
    rename_i o c ts body
    have hall : OutputsIn digits ([o] ++ ts ++ [c]) [.block body o.extent] := by
      have hclose : OutputsIn digits [c] [] := .of_forall_ne (by simp [hc]) _
      refine ((h.outputsIn.prepend (by simp [ho])).append hclose).mono fun s hs part hin =>
        ⟨_, List.mem_singleton_self _, .block ?_ hin⟩
      simpa using hs
    simpa using hall
termination_by structural h

theorem ElseParts.outputsIn {ts : List Token} {others : List Stmt} {otherwise : Stmt}
    (h : ElseParts digits ts others otherwise) : OutputsIn digits ts (others ++ [otherwise]) := by
  match h with
  | .nothing => exact .of_forall_ne (List.forall_mem_nil _) _
  | .otherwise hkeyword hlast hbody =>
    rename_i keyword last body
    exact hbody.outputsIn.prepend (show ∀ t ∈ [keyword, last], _ by simp [hkeyword, hlast])
  | .branch hkeyword hsecond he hlast hbody hrest =>
    rename_i keyword second last ts body rest e s others
    have hhead : ∀ t ∈ keyword :: second :: ts ++ [last], t.kind ≠ .sign .output := by
      simpa [hkeyword, hsecond, hlast, or_imp, forall_and] using he.kind_ne_output
    have hbranch : OutputsIn digits (keyword :: second :: ts ++ [last] ++ body)
        [.branch e s (keyword.extent.join second.extent)] :=
      (hbody.outputsIn.prepend hhead).mono (by simpa using fun part hin => .branch hin)
    have hall := hbranch.append hrest.outputsIn
    simpa using hall
termination_by structural h

end

theorem Program.outputsIn {ts : List Token} {body : List Stmt} (h : Program digits ts body) :
    OutputsIn digits ts body := by
  obtain @⟨_, _, last, h, hlast⟩ := h
  have hend : OutputsIn digits [last] [] := .of_forall_ne (by simp [hlast]) _
  simpa using h.outputsIn.append hend

end Grammar

end DialogScript
