import DialogScript.Proofs.Lexing.Lexed
import DialogScript.Proofs.Numbers.Decimals
import DialogScript.Proofs.Parsing.Streaming
import DialogScript.Proofs.Parsing.Trees
import DialogScript.Proofs.Running.Programs

/-!
# What accepted programs are like

Facts about the trees of accepted texts that no single part of the lexer or the parser checks.
Blocks are not empty, strings are in their shortest form, names are names, numbers are in range,
and every span has a place in the source (`Expr.WellFormed`, `Stmt.WellFormed`). In the order of
the source, the lines of the statements go up from one to the next (`Stmt.lines`).

All of it is read off the derivation of the tree together with what the lexer promises about the
tokens (`Lexed`). The lines go up because a statement ends with the end of a line, and the words
and signs after the end of a line are on later lines (`InLines.append`).
-/

namespace DialogScript

open Grammar

variable {digits : DigitLimit}

/-- An expression of a program that was read from a text. -/
inductive Expr.WellFormed : Expr → Prop
  | integer {n : Int} {span : Span} (hleast : 0 ≤ n) (hgreatest : n < 2 ^ 31)
      (hspan : span.Placed) : WellFormed (.integer n span)
  | float {x : Floating} {span : Span} (hsingle : x.IsSingle) (hunsigned : x.Unsigned)
      (hspan : span.Placed) : WellFormed (.float x span)
  | boolean {b : Bool} {span : Span} (hspan : span.Placed) : WellFormed (.boolean b span)
  | text {s : String} {span : Span} (hspan : span.Placed) : WellFormed (.text s span)
  /-- A template has parts, and not only a single text. -/
  | template {parts : List Expr} {span : Span} (hparts : ∀ e ∈ parts, WellFormed e)
      (hne : parts ≠ []) (hlone : ∀ s place, parts ≠ [.text s place]) (hspan : span.Placed) :
      WellFormed (.template parts span)
  | variable {name : String} {span : Span} (hname : isNameText name = true)
      (hspan : span.Placed) : WellFormed (.variable name span)
  | unary {op : UnaryOperator} {operand : Expr} {span : Span} (h : WellFormed operand)
      (hspan : span.Placed) : WellFormed (.unary op operand span)
  | binary {op : BinaryOperator} {left right : Expr} {span : Span} (hl : WellFormed left)
      (hr : WellFormed right) (hspan : span.Placed) : WellFormed (.binary op left right span)

private theorem Expr.WellFormed.span_placed {e : Expr} (h : e.WellFormed) : e.span.Placed := by
  cases h <;> assumption

namespace Stmt

mutual

/-- A statement of a program that was read from a text. -/
inductive WellFormed : Stmt → Prop
  | assign {name : String} {value : Expr} {span : Span} (hname : isNameText name = true)
      (hvalue : value.WellFormed) (hspan : span.Placed) : WellFormed (.assign name value span)
  | output {value : Expr} {span : Span} (hvalue : value.WellFormed) (hspan : span.Placed) :
      WellFormed (.output value span)
  | input {name : String} {type : InputType} {span : Span} (hname : isNameText name = true)
      (hspan : span.Placed) : WellFormed (.input name type.toJson span)
  | block {s : Stmt} (h : WellFormedBlock s) : WellFormed s
  | loop {condition : Expr} {body : Stmt} {span : Span} (hcondition : condition.WellFormed)
      (hbody : WellFormedBlock body) (hspan : span.Placed) : WellFormed (.loop condition body span)
  | choice {first otherwise : Stmt} {others : List Stmt} {span : Span}
      (hbranches : ∀ s ∈ first :: others, WellFormedBranch s)
      (hotherwise : otherwise ≠ .absent → WellFormedBlock otherwise) (hspan : span.Placed) :
      WellFormed (.choice first others otherwise span)

/-- A block with a statement or more. -/
inductive WellFormedBlock : Stmt → Prop
  | block {body : List Stmt} {span : Span} (hne : body ≠ []) (h : ∀ s ∈ body, WellFormed s)
      (hspan : span.Placed) : WellFormedBlock (.block body span)

/-- A branch of a choice. -/
inductive WellFormedBranch : Stmt → Prop
  | branch {condition : Expr} {body : Stmt} {span : Span} (hcondition : condition.WellFormed)
      (hbody : WellFormedBlock body) (hspan : span.Placed) :
      WellFormedBranch (.branch condition body span)

end

mutual

/-- The lines of the assignments, outputs, inputs, loops and choices in a statement, in the order
in which they are written. -/
def lines : Stmt → List Int
  | .assign _ _ span => [span.line]
  | .output _ span => [span.line]
  | .input _ _ span => [span.line]
  | .block body _ => linesAll body
  | .loop _ body span => span.line :: lines body
  | .choice first others otherwise span =>
    span.line :: (lines first ++ linesAll others ++ lines otherwise)
  | .branch _ body _ => lines body
  | _ => []

/-- The lines of the statements in some statements. -/
def linesAll : List Stmt → List Int
  | [] => []
  | s :: rest => lines s ++ linesAll rest

end

mutual

theorem loopLines_sublist : ∀ s : Stmt, (loopLines s).Sublist (lines s)
  | .loop _ body _ => by
    rw [loopLines, lines]
    exact (loopLines_sublist body).cons_cons _
  | .block body _ => by
    rw [loopLines, lines]
    exact loopLinesAll_sublist body
  | .choice first others otherwise _ => by
    rw [loopLines, lines]
    exact (((loopLines_sublist first).append (loopLinesAll_sublist others)).append
      (loopLines_sublist otherwise)).cons _
  | .branch _ body _ => by
    rw [loopLines, lines]
    exact loopLines_sublist body
  | .assign _ _ _ | .output _ _ | .input _ _ _ | .expression _ | .program _ _ | .absent => by
    simp [loopLines]

/-- The loops are some of the statements. -/
theorem loopLinesAll_sublist : ∀ ss : List Stmt, (loopLinesAll ss).Sublist (linesAll ss)
  | [] => by simp [loopLinesAll]
  | s :: rest => by
    rw [loopLinesAll, linesAll]
    exact (loopLines_sublist s).append (loopLinesAll_sublist rest)

end

end Stmt

/-! ### Expressions -/

namespace Grammar

/-- Spans with places make well-formed expressions, and the name of a variable is a name. -/
theorem keeps_wellFormed :
    Keeps (fun t => t.Grounded ∧ t.WellMade) Span.Placed Expr.WellFormed where
  extent _ _ ht := ht.1.placed ht.2
  join _ s' hs := hs.join s'
  span _ he := he.span_placed
  integer _ _ hn hspan := .integer (by omega) (by omega) hspan
  float _ _ _ hspan :=
    .float (Floating.isSingle_toSingle _) (Decimal.unsigned_toFloating _ _).toSingle hspan
  boolean _ _ hspan := .boolean hspan
  text _ _ hspan := .text hspan
  name _ hkind ht := .variable (ht.1.name hkind) (ht.1.placed ht.2)
  unary _ _ _ he hspan := .unary he hspan
  binary _ _ _ _ hl hr hspan := .binary hl hr hspan
  template _ _ hne hlone hparts hspan := .template hparts hne hlone hspan

private theorem wellFormed_of_expression {level : Level} {ts : List Token} {e : Expr}
    (h : Expression digits level ts e) (hts : Lexed ts) : e.WellFormed :=
  h.kept keeps_wellFormed fun t ht => ⟨hts.grounded t ht, hts.made t ht⟩

end Grammar

/-! ### Lines -/

/-- Lines of statements that some tokens make up: each is the line of a word or a sign and comes to
its end within the tokens, and they go up. -/
structure InLines (ts : List Token) (lines : List Int) : Prop where
  leads : ∀ line ∈ lines, ∃ t ∈ ts, t.kind.isLead = true ∧ t.line = line
  ends : ∀ line ∈ lines, ∃ t ∈ ts, t.kind = .lineEnd ∧ line ≤ t.line
  increasing : lines.Pairwise (· < ·)

namespace InLines

variable {ts us : List Token} {lines lines' : List Int}

theorem nil (ts : List Token) : InLines ts [] :=
  ⟨List.forall_mem_nil _, List.forall_mem_nil _, .nil⟩

theorem within (h : InLines ts lines) (before after : List Token)
    (hus : us = before ++ ts ++ after) : InLines us lines where
  leads line hline := by
    obtain ⟨t, ht, hlead⟩ := h.leads line hline
    exact ⟨t, by simp [hus, ht], hlead⟩
  ends line hline := by
    obtain ⟨t, ht, hend⟩ := h.ends line hline
    exact ⟨t, by simp [hus, ht], hend⟩
  increasing := h.increasing

/-- The lines of what comes first are above the lines of what comes after. -/
theorem append (h : InLines ts lines) (h' : InLines us lines') (hall : Scanned (ts ++ us)) :
    InLines (ts ++ us) (lines ++ lines') := by
  refine ⟨List.forall_mem_append.mpr ⟨(h.within [] us (by simp)).leads,
    (h'.within ts [] (by simp)).leads⟩, List.forall_mem_append.mpr
    ⟨(h.within [] us (by simp)).ends, (h'.within ts [] (by simp)).ends⟩,
    List.pairwise_append.mpr ⟨h.increasing, h'.increasing, fun line hline line' hline' => ?_⟩⟩
  obtain ⟨last, hlast, hend, hle⟩ := h.ends line hline
  obtain ⟨t, ht, hlead, rfl⟩ := h'.leads line' hline'
  have hless := ((List.pairwise_append.mp hall.inOrder).2.2 last hlast t ht).lineEnd_lead hend hlead
  omega

/-- The first line of a statement: it leads to the end of a line. -/
theorem header {t last : Token} (h : Scanned (t :: ts ++ [last])) (hlead : t.kind.isLead = true)
    (hlast : last.kind = .lineEnd) {span : Span} (hspan : span.line = t.extent.line) :
    InLines (t :: ts ++ [last]) [span.line] := by
  have hline : span.line = t.line := hspan.trans (Token.extent_line (h.made t (by simp)).columns)
  have hprecedes : t.Precedes last := (List.pairwise_cons.mp h.inOrder).1 last (by simp)
  rw [hline]
  exact ⟨List.forall_mem_singleton.mpr ⟨t, by simp, hlead, rfl⟩,
    List.forall_mem_singleton.mpr ⟨last, by simp, hlast, hprecedes.lead_lineEnd hlead hlast⟩,
    List.pairwise_singleton _ _⟩

end InLines

/-! ### Statements -/

namespace Grammar

open Stmt

mutual

private theorem wellFormed_of_statement {ts : List Token} {s : Stmt} (h : Statement digits ts s)
    (hts : Lexed ts) : s.WellFormed ∧ InLines ts s.lines := by
  match h with
  | .assign hname hsign he hlast =>
    rename_i name sign last ts e
    have hvalue := wellFormed_of_expression he (hts.part [name, sign] [last] (by simp))
    refine ⟨.assign ((hts.grounded _ (by simp)).name hname) hvalue
      ((hts.extent_placed (by simp)).join _), ?_⟩
    exact .header hts.toScanned (by rw [hname]; rfl) hlast (Span.join_line _ _)
  | .output hsign he hlast =>
    rename_i sign last ts e
    have hvalue := wellFormed_of_expression he (hts.part [sign] [last] (by simp))
    refine ⟨.output hvalue ((hts.extent_placed (by simp)).join _), ?_⟩
    exact .header hts.toScanned (by rw [hsign]; rfl) hlast (Span.join_line _ _)
  | .input hsign hname hlast =>
    rename_i sign name last
    have hline : Scanned (sign :: [name] ++ [last]) := hts.toScanned
    refine ⟨.input ((hts.grounded _ (by simp)).name hname)
      ((hts.extent_placed (by simp)).join _), ?_⟩
    exact .header hline (by rw [hsign]; rfl) hlast (Span.join_line _ _)
  | .typedInput hsign hname hlink has hword htype hlast =>
    rename_i sign name link word last type
    have hline : Scanned (sign :: [name, link, word] ++ [last]) := hts.toScanned
    refine ⟨.input ((hts.grounded _ (by simp)).name hname)
      (((hts.extent_placed (by simp)).join _).join _), ?_⟩
    refine .header hline (by rw [hsign]; rfl) hlast ?_
    rw [Span.join_line, Span.join_line]
  | .block h =>
    obtain ⟨hblock, hlines⟩ := wellFormed_of_block h hts
    exact ⟨.block hblock, hlines⟩
  | .loop hkeyword he hlast hbody =>
    rename_i keyword last ts body e s
    have hcondition := wellFormed_of_expression he (hts.part [keyword] (last :: body) (by simp))
    obtain ⟨hblock, hlines⟩ :=
      wellFormed_of_block hbody (hts.part (keyword :: ts ++ [last]) [] (by simp))
    refine ⟨.loop hcondition hblock (hts.extent_placed (by simp)), ?_⟩
    have hhead : InLines (keyword :: ts ++ [last]) [keyword.extent.line] :=
      .header (hts.part [] body (by simp)).toScanned (by rw [hkeyword]; rfl) hlast rfl
    have hall := hhead.append hlines (by simpa using hts.toScanned)
    exact hall.within [] [] (by simp)
  | .choice hkeyword he hlast hbody hrest =>
    rename_i keyword last ts body rest e s otherwise others
    have hcondition :=
      wellFormed_of_expression he (hts.part [keyword] (last :: body ++ rest) (by simp))
    obtain ⟨hblock, hlines⟩ :=
      wellFormed_of_block hbody (hts.part (keyword :: ts ++ [last]) rest (by simp))
    obtain ⟨hothers, hotherwise, hlinesRest⟩ :=
      wellFormed_of_elseParts hrest (hts.part (keyword :: ts ++ last :: body) [] (by simp))
    have hspan := hts.extent_placed (t := keyword) (by simp)
    refine ⟨.choice (List.forall_mem_cons.mpr ⟨.branch hcondition hblock hspan, hothers⟩)
      hotherwise hspan, ?_⟩
    have hhead : InLines (keyword :: ts ++ [last]) [keyword.extent.line] :=
      .header (hts.part [] (body ++ rest) (by simp)).toScanned (by rw [hkeyword]; rfl) hlast rfl
    have hbodies := hlines.append hlinesRest
      (hts.part (keyword :: ts ++ [last]) [] (by simp)).toScanned
    have hall := hhead.append hbodies (by simpa using hts.toScanned)
    rw [lines, lines, List.append_assoc s.lines]
    exact hall.within [] [] (by simp)
termination_by structural h

private theorem wellFormed_of_statements {ts : List Token} {ss : List Stmt}
    (h : Statements digits ts ss)
    (hts : Lexed ts) : (∀ s ∈ ss, s.WellFormed) ∧ InLines ts (linesAll ss) := by
  match h with
  | .nil => exact ⟨List.forall_mem_nil _, .nil _⟩
  | .cons hfirst hrest =>
    rename_i ts us s rest
    obtain ⟨hs, hlines⟩ := wellFormed_of_statement hfirst (hts.part [] us (by simp))
    obtain ⟨hss, hlinesRest⟩ := wellFormed_of_statements hrest (hts.part ts [] (by simp))
    exact ⟨List.forall_mem_cons.mpr ⟨hs, hss⟩, hlines.append hlinesRest hts.toScanned⟩
termination_by structural h

private theorem wellFormed_of_block {ts : List Token} {s : Stmt} (h : Block digits ts s)
    (hts : Lexed ts) : WellFormedBlock s ∧ InLines ts s.lines := by
  match h with
  | .indented ho hc hbody =>
    rename_i o c ts body
    obtain ⟨hss, hlines⟩ := wellFormed_of_statements hbody (hts.part [o] [c] (by simp))
    refine ⟨.block ?_ hss (hts.extent_placed (by simp)), hlines.within [o] [c] (by simp)⟩
    -- An empty block would be closed right where it is opened.
    rintro rfl
    cases hbody
    have hopens : o.Opens c := (List.isChain_cons_cons.mp hts.opens).1
    have hlayout := hopens ho
    rw [hc] at hlayout
    cases hlayout
termination_by structural h

private theorem wellFormed_of_elseParts {ts : List Token} {others : List Stmt} {otherwise : Stmt}
    (h : ElseParts digits ts others otherwise) (hts : Lexed ts) :
    (∀ s ∈ others, WellFormedBranch s) ∧ (otherwise ≠ .absent → WellFormedBlock otherwise) ∧
      InLines ts (linesAll others ++ otherwise.lines) := by
  match h with
  | .nothing => exact ⟨List.forall_mem_nil _, fun hne => absurd rfl hne, .nil _⟩
  | .otherwise hkeyword hlast hbody =>
    rename_i keyword last body
    obtain ⟨hblock, hlines⟩ := wellFormed_of_block hbody (hts.part [keyword, last] [] (by simp))
    exact ⟨List.forall_mem_nil _, fun _ => hblock, hlines.within [keyword, last] [] (by simp)⟩
  | .branch hkeyword hsecond he hlast hbody hrest =>
    rename_i keyword second last ts body rest e s others
    have hcondition := wellFormed_of_expression he
      (hts.part [keyword, second] (last :: body ++ rest) (by simp))
    obtain ⟨hblock, hlines⟩ :=
      wellFormed_of_block hbody (hts.part (keyword :: second :: ts ++ [last]) rest (by simp))
    obtain ⟨hothers, hotherwise, hlinesRest⟩ :=
      wellFormed_of_elseParts hrest (hts.part (keyword :: second :: ts ++ last :: body) []
        (by simp))
    refine ⟨List.forall_mem_cons.mpr ⟨.branch hcondition hblock
      ((hts.extent_placed (by simp)).join _), hothers⟩, hotherwise, ?_⟩
    have hbodies := hlines.append hlinesRest
      (hts.part (keyword :: second :: ts ++ [last]) [] (by simp)).toScanned
    rw [linesAll, lines, List.append_assoc s.lines]
    exact hbodies.within (keyword :: second :: ts ++ [last]) [] (by simp)
termination_by structural h

end

end Grammar

/-- The program of an accepted text comes from the source that it is read from, and its tree is
well formed. The lines of its statements go up in the order of the source, so no two loops are on
one line. -/
theorem wellFormed_of_parseProgram {source : Source} {text : String} {p : Program}
    (h : parseProgram source text digits = .ok p) :
    p.source = source ∧ (∀ s ∈ p.statements, s.WellFormed) ∧
      (Stmt.linesAll p.statements).Pairwise (· < ·) ∧ (Stmt.loopLinesAll p.statements).Nodup := by
  obtain ⟨ss, hss, hp⟩ := bind_eq_ok.mp h
  obtain rfl := pure_eq_ok.mp hp
  obtain ⟨hitems, hfault⟩ := Listing.eq_of_toExcept hss
  have hparsed : parseText text digits = ⟨ss, none⟩ := by rw [← hitems, ← hfault]
  have hlexed := lexed_tokensOf (fault_eq_none_of_parseText hparsed)
  have hprogram := grammar_of_parseText hparsed
  generalize (tokensOf text).items = tokens at hlexed hprogram
  obtain @⟨ts, _, last, hstatements, -⟩ := hprogram
  obtain ⟨hwellFormed, hlines⟩ :=
    wellFormed_of_statements hstatements (hlexed.part [] [last] (by simp))
  exact ⟨rfl, hwellFormed, hlines.increasing,
    (hlines.increasing.sublist (Stmt.loopLinesAll_sublist ss)).imp Int.ne_of_lt⟩

/-- The tokens of a loop with a string in it and of a choice with a question in it. -/
def stringAndQuestionTokens : List Token :=
  [⟨.keyword .whileWord, "while", 1, 1, 6⟩, ⟨.name, "a", 1, 7, 8⟩, ⟨.lineEnd, "\n", 1, 8, 9⟩,
    ⟨.indent, "", 2, 1, 3⟩, ⟨.sign .output, "<<", 2, 3, 5⟩, ⟨.stringStart, "\"", 2, 6, 7⟩,
    ⟨.holeStart, "\x7b", 2, 7, 8⟩, ⟨.name, "b", 2, 8, 9⟩, ⟨.holeEnd, "\x7d", 2, 9, 10⟩,
    ⟨.text, "!", 2, 10, 11⟩, ⟨.stringEnd, "\"", 2, 11, 12⟩, ⟨.lineEnd, "\n", 2, 12, 13⟩,
    ⟨.dedent, "", 3, 1, 2⟩, ⟨.keyword .ifWord, "if", 3, 1, 3⟩, ⟨.name, "c", 3, 4, 5⟩,
    ⟨.lineEnd, "\n", 3, 5, 6⟩, ⟨.indent, "", 4, 1, 3⟩, ⟨.sign .input, ">>", 4, 3, 5⟩,
    ⟨.name, "d", 4, 6, 7⟩, ⟨.name, "as", 4, 8, 10⟩, ⟨.name, "bool", 4, 11, 15⟩,
    ⟨.lineEnd, "\n", 4, 15, 16⟩, ⟨.dedent, "", 5, 1, 2⟩, ⟨.sourceEnd, "", 5, 1, 2⟩]

/-- A loop with a string in it and a choice with a question in it make up a well-formed program. -/
theorem wellFormed_stringAndQuestion :
    ∃ p, parseProgram .empty "while a\n  << \"\x7bb\x7d!\"\nif c\n  >> d as bool\n" .standard
        = .ok p ∧
      p.source = .empty ∧ (∀ s ∈ p.statements, s.WellFormed) ∧
      (Stmt.linesAll p.statements).Pairwise (· < ·) ∧ (Stmt.loopLinesAll p.statements).Nodup := by
  have htokens : tokensOf "while a\n  << \"\x7bb\x7d!\"\nif c\n  >> d as bool\n"
      = ⟨stringAndQuestionTokens, none⟩ := by decide +kernel
  have hmade : ∀ t ∈ (tokensOf "while a\n  << \"\x7bb\x7d!\"\nif c\n  >> d as bool\n").items,
      t.WellMade := Lexer.wellMade_of_mem_tokens _
  rw [htokens] at hmade
  have hstring : Expression .standard .primary ((stringAndQuestionTokens.drop 5).take 6) _ :=
    .string rfl rfl (.hole rfl rfl (.whole (.variable rfl)) (.fragment rfl .nil))
  have hloop : Statement .standard (stringAndQuestionTokens.take 13) _ :=
    .loop rfl (.whole (.variable rfl)) rfl
      (.indented rfl rfl (.cons (.output rfl (.whole hstring) rfl) .nil))
  have hinput : Statements .standard ((stringAndQuestionTokens.drop 17).take 5) _ :=
    .cons (.typedInput rfl rfl rfl rfl rfl (by decide : (_, InputType.boolean) ∈ _) rfl) .nil
  have hchoice : Statement .standard ((stringAndQuestionTokens.drop 13).take 10) _ :=
    .choice rfl (.whole (.variable rfl)) rfl (.indented rfl rfl hinput) .nothing
  obtain ⟨ss, hderived⟩ : ∃ ss, Grammar.Program .standard stringAndQuestionTokens ss :=
    ⟨_, .statements (.cons hloop (.cons hchoice .nil)) rfl⟩
  have hp : parseProgram .empty "while a\n  << \"\x7bb\x7d!\"\nif c\n  >> d as bool\n" .standard
      = .ok ⟨ss, .empty⟩ := by
    rw [parseProgram, parseText, htokens, parseTokens_of_grammar hmade hderived]
    rfl
  exact ⟨_, hp, wellFormed_of_parseProgram hp⟩

end DialogScript
