import DialogScript.Proofs.Parsing.Expressions

/-!
# The grammar under a bound on digits

A bound on the digits that are read as one whole number takes nothing from the grammar but the
programs with an integer above the bound: what is derived under a bound is what is derived without
one from tokens whose integers the bound admits, with the same tree
(`Grammar.program_iff_lifted`).
-/

namespace DialogScript

namespace Grammar

/-- No integer among some tokens has more digits than can be read. -/
def Admitted (digits : DigitLimit) (ts : List Token) : Prop :=
  ∀ t ∈ ts, t.kind = .integer → digits.Admits t.text.length

variable {digits : DigitLimit} {t : Token} {ts us : List Token}

@[simp]
theorem admitted_nil : Admitted digits [] := List.forall_mem_nil _

@[simp]
theorem admitted_cons :
    Admitted digits (t :: ts) ↔
      (t.kind = .integer → digits.Admits t.text.length) ∧ Admitted digits ts :=
  List.forall_mem_cons

@[simp]
theorem admitted_append :
    Admitted digits (ts ++ us) ↔ Admitted digits ts ∧ Admitted digits us :=
  List.forall_mem_append

private theorem admitted_lifted (ts : List Token) : Admitted .lifted ts :=
  fun t _ _ => DigitLimit.admits_lifted t.text.length

end Grammar

private theorem BinaryOperator.tokenKind_ne_integer (op : BinaryOperator) :
    op.tokenKind ≠ .integer := by
  cases op <;> nofun

private theorem UnaryOperator.tokenKind_ne_integer (op : UnaryOperator) :
    op.tokenKind ≠ .integer := by
  cases op <;> nofun

namespace Grammar

variable {digits other : DigitLimit}

/-! ### Expressions -/

mutual

/-- The integers of an expression are admitted. -/
theorem Expression.admitted {ts : List Token} {level : Level} {e : Expr}
    (h : Expression digits level ts e) : Admitted digits ts := by
  match h with
  | .tighter _ h => exact h.admitted
  | .binary _ _ hop hl hr =>
    simp [hop, BinaryOperator.tokenKind_ne_integer, hl.admitted, hr.admitted]
  | .unary _ hop h => simp [hop, UnaryOperator.tokenKind_ne_integer, h.admitted]
  | .integer _ hdigits _ => simp [hdigits]
  | .float hkind _ _ _ | .text hkind | .trueWord hkind | .falseWord hkind | .variable hkind =>
    simp [hkind]
  | .parenthesized ho hc h => simp [ho, hc, h.admitted]
  | .string ho hc h => simp [ho, hc, h.admitted]
termination_by structural h

theorem Pieces.admitted {ts : List Token} {pieces : List Piece} (h : Pieces digits ts pieces) :
    Admitted digits ts := by
  match h with
  | .nil => exact admitted_nil
  | .fragment hkind h => simp [hkind, h.admitted]
  | .hole ho hc he h => simp [ho, hc, he.admitted, h.admitted]
termination_by structural h

end

mutual

/-- What is an expression under one bound is one under every bound that admits its integers. -/
theorem Expression.rebound {ts : List Token} {level : Level} {e : Expr}
    (h : Expression other level ts e) (hts : Admitted digits ts) :
    Expression digits level ts e := by
  match h with
  | .tighter hnext h => exact .tighter hnext (h.rebound hts)
  | .binary hlevel hnext hop hl hr =>
    rw [admitted_append, admitted_cons] at hts
    exact .binary hlevel hnext hop (hl.rebound hts.1) (hr.rebound hts.2.2)
  | .unary hlevel hop h => exact .unary hlevel hop (h.rebound (admitted_cons.mp hts).2)
  | .integer hkind _ hrange => exact .integer hkind (hts _ (by simp) hkind) hrange
  | .float hkind htext hwhole hfraction => exact .float hkind htext hwhole hfraction
  | .text hkind => exact .text hkind
  | .trueWord hkind => exact .trueWord hkind
  | .falseWord hkind => exact .falseWord hkind
  | .variable hkind => exact .variable hkind
  | .parenthesized ho hc h =>
    simp only [admitted_append, admitted_cons] at hts
    exact .parenthesized ho hc (h.rebound hts.1.2)
  | .string ho hc h =>
    simp only [admitted_append, admitted_cons] at hts
    exact .string ho hc (h.rebound hts.1.2)
termination_by structural h

theorem Pieces.rebound {ts : List Token} {pieces : List Piece} (h : Pieces other ts pieces)
    (hts : Admitted digits ts) : Pieces digits ts pieces := by
  match h with
  | .nil => exact .nil
  | .fragment hkind h => exact .fragment hkind (h.rebound (admitted_cons.mp hts).2)
  | .hole ho hc he h =>
    simp only [admitted_append, admitted_cons] at hts
    exact .hole ho hc (he.rebound hts.1.2) (h.rebound hts.2.2)
termination_by structural h

end

/-! ### Statements -/

mutual

/-- The integers of a statement are admitted. -/
theorem Statement.admitted {ts : List Token} {s : Stmt} (h : Statement digits ts s) :
    Admitted digits ts := by
  match h with
  | .assign hname hsign he hlast => simp [hname, hsign, hlast, he.admitted]
  | .output hsign he hlast => simp [hsign, hlast, he.admitted]
  | .input hsign hname hlast => simp [hsign, hname, hlast]
  | .typedInput hsign hname hlink _ hword _ hlast => simp [hsign, hname, hlink, hword, hlast]
  | .block h => exact h.admitted
  | .loop hkeyword he hlast hbody => simp [hkeyword, hlast, he.admitted, hbody.admitted]
  | .choice hkeyword he hlast hbody hrest =>
    simp [hkeyword, hlast, he.admitted, hbody.admitted, hrest.admitted]
termination_by structural h

theorem Statements.admitted {ts : List Token} {ss : List Stmt} (h : Statements digits ts ss) :
    Admitted digits ts := by
  match h with
  | .nil => exact admitted_nil
  | .cons h hrest => simp [h.admitted, hrest.admitted]
termination_by structural h

theorem Block.admitted {ts : List Token} {s : Stmt} (h : Block digits ts s) :
    Admitted digits ts := by
  match h with
  | .indented ho hc h => simp [ho, hc, h.admitted]
termination_by structural h

theorem ElseParts.admitted {ts : List Token} {others : List Stmt} {otherwise : Stmt}
    (h : ElseParts digits ts others otherwise) : Admitted digits ts := by
  match h with
  | .nothing => exact admitted_nil
  | .otherwise hkeyword hlast hbody => simp [hkeyword, hlast, hbody.admitted]
  | .branch hkeyword hsecond he hlast hbody hrest =>
    simp [hkeyword, hsecond, hlast, he.admitted, hbody.admitted, hrest.admitted]
termination_by structural h

end

mutual

/-- What is a statement under one bound is one under every bound that admits its integers. -/
theorem Statement.rebound {ts : List Token} {s : Stmt} (h : Statement other ts s)
    (hts : Admitted digits ts) : Statement digits ts s := by
  match h with
  | .assign hname hsign he hlast =>
    simp only [admitted_append, admitted_cons] at hts
    exact .assign hname hsign (he.rebound hts.1.2.2) hlast
  | .output hsign he hlast =>
    simp only [admitted_append, admitted_cons] at hts
    exact .output hsign (he.rebound hts.1.2) hlast
  | .input hsign hname hlast => exact .input hsign hname hlast
  | .typedInput hsign hname hlink has hword htype hlast =>
    exact .typedInput hsign hname hlink has hword htype hlast
  | .block h => exact .block (h.rebound hts)
  | .loop hkeyword he hlast hbody =>
    simp only [admitted_append, admitted_cons] at hts
    exact .loop hkeyword (he.rebound hts.1.2) hlast (hbody.rebound hts.2.2)
  | .choice hkeyword he hlast hbody hrest =>
    simp only [admitted_append, admitted_cons] at hts
    exact .choice hkeyword (he.rebound hts.1.1.2) hlast (hbody.rebound hts.1.2.2)
      (hrest.rebound hts.2)
termination_by structural h

theorem Statements.rebound {ts : List Token} {ss : List Stmt} (h : Statements other ts ss)
    (hts : Admitted digits ts) : Statements digits ts ss := by
  match h with
  | .nil => exact .nil
  | .cons h hrest =>
    rw [admitted_append] at hts
    exact .cons (h.rebound hts.1) (hrest.rebound hts.2)
termination_by structural h

theorem Block.rebound {ts : List Token} {s : Stmt} (h : Block other ts s)
    (hts : Admitted digits ts) : Block digits ts s := by
  match h with
  | .indented ho hc h =>
    simp only [admitted_append, admitted_cons] at hts
    exact .indented ho hc (h.rebound hts.1.2)
termination_by structural h

theorem ElseParts.rebound {ts : List Token} {others : List Stmt} {otherwise : Stmt}
    (h : ElseParts other ts others otherwise) (hts : Admitted digits ts) :
    ElseParts digits ts others otherwise := by
  match h with
  | .nothing => exact .nothing
  | .otherwise hkeyword hlast hbody =>
    simp only [admitted_cons] at hts
    exact .otherwise hkeyword hlast (hbody.rebound hts.2.2)
  | .branch hkeyword hsecond he hlast hbody hrest =>
    simp only [admitted_append, admitted_cons] at hts
    exact .branch hkeyword hsecond (he.rebound hts.1.1.2.2) hlast (hbody.rebound hts.1.2.2)
      (hrest.rebound hts.2)
termination_by structural h

end

/-- What is derived under a bound is what is derived without one, if the bound admits all
integers. -/
theorem program_iff_lifted {ts : List Token} {ss : List Stmt} :
    Program digits ts ss ↔ Program .lifted ts ss ∧ Admitted digits ts := by
  constructor
  · rintro ⟨h, hlast⟩
    refine ⟨.statements (h.rebound (admitted_lifted _)) hlast, ?_⟩
    simp [hlast, h.admitted]
  · rintro ⟨⟨h, hlast⟩, hts⟩
    exact .statements (h.rebound (admitted_append.mp hts).1) hlast

end Grammar

end DialogScript
