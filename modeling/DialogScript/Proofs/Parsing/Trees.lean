import DialogScript.Proofs.Numbers.Rounding
import DialogScript.Proofs.Parsing.Expressions

/-!
# The trees of parsed programs

A property of expressions that holds of every node which the grammar puts together from parts and
spans with a property holds of every expression of the grammar (`Grammar.Expression.kept`).

A stored program may hold any node anywhere; a program of the grammar does not. Its expressions
are expressions with integers in range and floats of single precision (`Expr.Proper`), and its
statements are statements that ask for input types that exist (`Stmt.Proper`). These are the trees
that survive being stored, and the trees whose runs have no faults.
-/

namespace DialogScript

open DialogScript.Parser (leastInteger greatestInteger)

namespace Grammar

variable {digits : DigitLimit} {R : Token → Prop} {Q : Span → Prop} {P : Expr → Prop}

/-- A property of tokens, one of spans and one of expressions such that the nodes of the grammar
have the last one if their tokens, spans and parts have theirs. -/
structure Keeps (R : Token → Prop) (Q : Span → Prop) (P : Expr → Prop) : Prop where
  extent : ∀ t : Token, t.kind.isLayout = false → R t → Q t.extent
  join : ∀ s s' : Span, Q s → Q (s.join s')
  span : ∀ e, P e → Q e.span
  integer : ∀ (n : Nat) (span : Span), n ≤ 2147483647 → Q span → P (.integer n span)
  float : ∀ (whole fraction : List Char) (span : Span), Q span →
    P (.float (Numeral.single whole fraction) span)
  boolean : ∀ (b : Bool) (span : Span), Q span → P (.boolean b span)
  text : ∀ (s : String) (span : Span), Q span → P (.text s span)
  name : ∀ t : Token, t.kind = .name → R t → P (.variable t.text t.extent)
  unary : ∀ (op : UnaryOperator) (e : Expr) (span : Span), P e → Q span → P (.unary op e span)
  binary : ∀ (op : BinaryOperator) (l r : Expr) (span : Span), P l → P r → Q span →
    P (.binary op l r span)
  /-- A template has parts, and not only a single text. -/
  template : ∀ (parts : List Expr) (span : Span), parts ≠ [] →
    (∀ s place, parts ≠ [.text s place]) → (∀ e ∈ parts, P e) → Q span → P (.template parts span)

/-- A piece of a string has a span with a property, or an expression with another one. -/
inductive Piece.Kept (Q : Span → Prop) (P : Expr → Prop) : Piece → Prop
  | fragment {s : String} {span : Span} (hspan : Q span) : Kept Q P (.fragment s span)
  | hole {e : Expr} (h : P e) : Kept Q P (.hole e)

namespace Keeps

variable (hkeeps : Keeps R Q P)

include hkeeps

/-- Joining fragments next to each other keeps the property of their spans. -/
theorem parts {pieces : List Piece} (h : ∀ piece ∈ pieces, piece.Kept Q P) :
    ∀ e ∈ Piece.parts pieces, P e := by
  fun_induction Piece.parts pieces with
  | case1 => exact List.forall_mem_nil _
  | case2 s p t q rest ih =>
    simp only [List.forall_mem_cons] at h
    obtain ⟨⟨hspan⟩, -, hrest⟩ := h
    exact ih (List.forall_mem_cons.mpr ⟨.fragment (hkeeps.join _ q hspan), hrest⟩)
  | case3 s p rest _ ih =>
    obtain ⟨⟨hspan⟩, hrest⟩ := List.forall_mem_cons.mp h
    exact List.forall_mem_cons.mpr ⟨hkeeps.text _ _ hspan, ih hrest⟩
  | case4 e rest ih =>
    obtain ⟨hhole, hrest⟩ := List.forall_mem_cons.mp h
    cases hhole with
    | hole he => exact List.forall_mem_cons.mpr ⟨he, ih hrest⟩

theorem node {pieces : List Piece} (h : ∀ piece ∈ pieces, piece.Kept Q P) {span : Span}
    (hspan : Q span) : P (Piece.node pieces span) := by
  have hparts := hkeeps.parts h
  unfold Piece.node
  split
  · exact hkeeps.text _ _ hspan
  · exact hkeeps.text _ _ hspan
  · rename_i hne hlone
    exact hkeeps.template _ _ hne hlone hparts hspan

end Keeps

/-- The nodes of the grammar keep what is known of their spans alone. -/
theorem Keeps.ofSpans (hextent : ∀ t : Token, t.kind.isLayout = false → R t → Q t.extent)
    (hjoin : ∀ s s' : Span, Q s → Q (s.join s')) : Keeps R Q fun e => Q e.span where
  extent := hextent
  join := hjoin
  span _ he := he
  integer _ _ _ hspan := hspan
  float _ _ _ hspan := hspan
  boolean _ _ hspan := hspan
  text _ _ hspan := hspan
  name t hkind ht := hextent t (by rw [hkind]; rfl) ht
  unary _ _ _ _ hspan := hspan
  binary _ _ _ _ _ _ hspan := hspan
  template _ _ _ _ _ hspan := hspan

mutual

/-- A property that the nodes of the grammar keep is one of all its expressions. -/
theorem Expression.kept {level : Level} {ts : List Token} {e : Expr}
    (h : Expression digits level ts e) (hkeeps : Keeps R Q P) (hts : ∀ t ∈ ts, R t) : P e := by
  match h with
  | .tighter _ h => exact h.kept hkeeps hts
  | .binary hlevel hnext hop hl hr =>
    have hleft := hl.kept hkeeps fun t ht => hts t (by simp [ht])
    have hright := hr.kept hkeeps fun t ht => hts t (by simp [ht])
    exact hkeeps.binary _ _ _ _ hleft hright (hkeeps.join _ _ (hkeeps.span _ hleft))
  | .unary hlevel hop h =>
    rename_i op t ts e
    have hlayout : t.kind.isLayout = false :=
      hop ▸ TokenKind.isLayout_of_isBoundary op.isBoundary_tokenKind
    exact hkeeps.unary _ _ _ (h.kept hkeeps fun t ht => hts t (by simp [ht]))
      (hkeeps.join _ _ (hkeeps.extent t hlayout (hts t (by simp))))
  | .integer hkind _ hrange =>
    exact hkeeps.integer _ _ hrange (hkeeps.extent _ (by rw [hkind]; rfl) (hts _ (by simp)))
  | .float hkind _ _ _ =>
    exact hkeeps.float _ _ _ (hkeeps.extent _ (by rw [hkind]; rfl) (hts _ (by simp)))
  | .text hkind => exact hkeeps.text _ _ (hkeeps.extent _ (by rw [hkind]; rfl) (hts _ (by simp)))
  | .trueWord hkind | .falseWord hkind =>
    exact hkeeps.boolean _ _ (hkeeps.extent _ (by rw [hkind]; rfl) (hts _ (by simp)))
  | .variable hkind => exact hkeeps.name _ hkind (hts _ (by simp))
  | .parenthesized _ _ h => exact h.kept hkeeps fun t ht => hts t (by simp [ht])
  | .string ho hc h =>
    rename_i o c ts pieces
    exact hkeeps.node (h.kept hkeeps fun t ht => hts t (by simp [ht]))
      (hkeeps.join _ _ (hkeeps.extent o (by rw [ho]; rfl) (hts o (by simp))))
termination_by structural h

theorem Pieces.kept {ts : List Token} {pieces : List Piece} (h : Pieces digits ts pieces)
    (hkeeps : Keeps R Q P) (hts : ∀ t ∈ ts, R t) : ∀ piece ∈ pieces, piece.Kept Q P := by
  match h with
  | .nil => exact List.forall_mem_nil _
  | .fragment hkind h =>
    rename_i t ts pieces
    exact List.forall_mem_cons.mpr
      ⟨.fragment (hkeeps.extent t (by rw [hkind]; rfl) (hts t (by simp))),
        h.kept hkeeps fun t ht => hts t (by simp [ht])⟩
  | .hole _ _ he h =>
    exact List.forall_mem_cons.mpr ⟨.hole (he.kept hkeeps fun t ht => hts t (by simp [ht])),
      h.kept hkeeps fun t ht => hts t (by simp [ht])⟩
termination_by structural h

end

end Grammar

/-! ### Proper trees -/

/-- An expression with each kind of node in its place, whose integers are in the range of script
integers and whose floats are of single precision. -/
inductive Expr.Proper : Expr → Prop
  | integer {n : Int} {span : Span} (hleast : leastInteger ≤ n) (hgreatest : n ≤ greatestInteger) :
      Proper (.integer n span)
  | float {x : Floating} {span : Span} (h : x.IsSingle) : Proper (.float x span)
  | boolean {b : Bool} {span : Span} : Proper (.boolean b span)
  | text {s : String} {span : Span} : Proper (.text s span)
  | template {parts : List Expr} {span : Span} (h : ∀ e ∈ parts, Proper e) :
      Proper (.template parts span)
  | variable {name : String} {span : Span} : Proper (.variable name span)
  | unary {op : UnaryOperator} {operand : Expr} {span : Span} (h : Proper operand) :
      Proper (.unary op operand span)
  | binary {op : BinaryOperator} {left right : Expr} {span : Span} (hl : Proper left)
      (hr : Proper right) : Proper (.binary op left right span)

/-- A statement with proper expressions, which asks only for input types that exist. What stands in
it is a statement, a branch of a choice or nothing. -/
inductive Stmt.Proper : Stmt → Prop
  | assign {name : String} {value : Expr} {span : Span} (h : value.Proper) :
      Proper (.assign name value span)
  | output {value : Expr} {span : Span} (h : value.Proper) : Proper (.output value span)
  | input {name : String} {type : InputType} {span : Span} :
      Proper (.input name type.toJson span)
  | block {body : List Stmt} {span : Span} (h : ∀ s ∈ body, Proper s) : Proper (.block body span)
  | loop {condition : Expr} {body : Stmt} {span : Span} (hcondition : condition.Proper)
      (hbody : Proper body) : Proper (.loop condition body span)
  | choice {first otherwise : Stmt} {others : List Stmt} {span : Span} (hfirst : Proper first)
      (hothers : ∀ s ∈ others, Proper s) (hotherwise : Proper otherwise) :
      Proper (.choice first others otherwise span)
  | branch {condition : Expr} {body : Stmt} {span : Span} (hcondition : condition.Proper)
      (hbody : Proper body) : Proper (.branch condition body span)
  | absent : Proper .absent

namespace Grammar

variable {digits : DigitLimit}

/-- Expressions of the grammar are proper. -/
theorem proper_of_expression {level : Level} {ts : List Token} {e : Expr}
    (h : Expression digits level ts e) : e.Proper := by
  refine h.kept (R := fun _ => True) (Q := fun _ => True) ?_ fun _ _ => trivial
  exact {
    extent := fun _ _ _ => trivial
    join := fun _ _ _ => trivial
    span := fun _ _ => trivial
    integer := fun n span hn _ =>
      .integer (by rw [leastInteger]; omega) (by rw [greatestInteger]; omega)
    float := fun _ _ _ _ => .float (Floating.isSingle_toSingle _)
    boolean := fun _ _ _ => .boolean
    text := fun _ _ _ => .text
    name := fun _ _ _ => .variable
    unary := fun _ _ _ he _ => .unary he
    binary := fun _ _ _ _ hl hr _ => .binary hl hr
    template := fun _ _ _ _ hparts _ => .template hparts }

mutual

/-- Statements of the grammar are proper. -/
theorem proper_of_statement {ts : List Token} {s : Stmt} (h : Statement digits ts s) :
    s.Proper := by
  match h with
  | .assign _ _ he _ => exact .assign (proper_of_expression he)
  | .output _ he _ => exact .output (proper_of_expression he)
  | .input _ _ _ => exact .input
  | .typedInput _ _ _ _ _ _ _ => exact .input
  | .block h => exact proper_of_block h
  | .loop _ he _ hbody => exact .loop (proper_of_expression he) (proper_of_block hbody)
  | .choice _ he _ hbody hrest =>
    have hbranch := proper_of_block hbody
    obtain ⟨hothers, hotherwise⟩ := proper_of_elseParts hrest
    exact .choice (.branch (proper_of_expression he) hbranch) hothers hotherwise
termination_by structural h

theorem proper_of_statements {ts : List Token} {ss : List Stmt} (h : Statements digits ts ss) :
    ∀ s ∈ ss, s.Proper := by
  match h with
  | .nil => simp
  | .cons h hrest =>
    exact List.forall_mem_cons.mpr ⟨proper_of_statement h, proper_of_statements hrest⟩
termination_by structural h

theorem proper_of_block {ts : List Token} {s : Stmt} (h : Block digits ts s) : s.Proper := by
  match h with
  | .indented _ _ h => exact .block (proper_of_statements h)
termination_by structural h

theorem proper_of_elseParts {ts : List Token} {others : List Stmt} {otherwise : Stmt}
    (h : ElseParts digits ts others otherwise) :
    (∀ s ∈ others, s.Proper) ∧ otherwise.Proper := by
  match h with
  | .nothing => exact ⟨by simp, .absent⟩
  | .otherwise _ _ hbody => exact ⟨by simp, proper_of_block hbody⟩
  | .branch _ _ he _ hbody hrest =>
    have hbranch := proper_of_block hbody
    obtain ⟨hothers, hotherwise⟩ := proper_of_elseParts hrest
    refine ⟨List.forall_mem_cons.mpr ⟨?_, hothers⟩, hotherwise⟩
    exact .branch (proper_of_expression he) hbranch
termination_by structural h

end

/-- The statements of a program of the grammar are proper. -/
theorem proper_of_program {ts : List Token} {ss : List Stmt}
    (h : Grammar.Program digits ts ss) :
    ∀ s ∈ ss, s.Proper := by
  cases h with
  | statements h _ => exact proper_of_statements h

end Grammar

end DialogScript
