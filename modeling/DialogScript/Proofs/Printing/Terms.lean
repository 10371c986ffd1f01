import DialogScript.Proofs.Parsing.Expressions
import DialogScript.Proofs.Printing.Lexemes

/-!
# Reading written expressions

The text of an expression is read as tokens that the grammar takes for the same expression
(`spells_render`). `Spells cs level tree` says so of any text, wherever in code it stands; each
form of expression has a lemma that makes up its text from the texts of its operands.

A string with holes is read hole by hole. The text before a hole is read together with the brace
that opens the hole, so the lemma for the parts of a string carries the text that is still to be
read (`SpellsParts`).
-/

namespace DialogScript

open Text Lexer Grammar

variable {digits : DigitLimit}

/-! ### Trees and spans -/

private theorem Expr.bareAll_append (es fs : List Expr) :
    Expr.bareAll (es ++ fs) = Expr.bareAll es ++ Expr.bareAll fs := by
  induction es with
  | nil => rfl
  | cons e es ih => rw [List.cons_append, Expr.bareAll, ih, Expr.bareAll, List.cons_append]

/-! ### Texts that spell an expression -/

/-- In code and before the end of a lexeme, the text `cs` is read as an expression of a level
with a given tree. -/
def Spells (digits : DigitLimit) (cs : List Char) (level : Level) (tree : Expr) : Prop :=
  ∀ (lx : Lexer) (rest : List Char), lx.InCode → lx.cursor.rest = cs ++ rest → Closes rest →
    ∃ ts e, lx.Yields ts (lx.after cs rest) ∧ Expression digits level ts e ∧ e.bare = tree

namespace Spells

variable {cs : List Char} {own : Level} {tree : Expr}

/-- What spells an expression of a level spells one of every looser level. -/
theorem lift (h : Spells digits cs own tree) {place : Level} (hle : own.height ≤ place.height) :
    Spells digits cs place tree := by
  intro lx rest hlx hrest hclose
  obtain ⟨ts, e, hts, he, hbare⟩ := h lx rest hlx hrest hclose
  exact ⟨ts, e, hts, he.lift place hle, hbare⟩

/-- A lexeme spells what the grammar makes of its token. -/
theorem of_lexeme {kind : TokenKind} (hcs : ∀ rest, Closes rest → IsLexeme cs rest kind)
    (hkind : ∀ t : Token, t.kind = kind → t.text = String.ofList cs →
      ∃ e, Expression digits .primary [t] e ∧ e.bare = tree) : Spells digits cs .primary tree := by
  intro lx rest hlx hrest hclose
  obtain ⟨t, ht, htext, hyields⟩ := (hcs rest hclose).yields hlx hrest
  obtain ⟨e, he, hbare⟩ := hkind t ht htext
  exact ⟨[t], e, hyields, he, hbare⟩

/-- In parentheses every expression is a primary one. -/
theorem parenthesized (h : Spells digits cs .disjunction tree) :
    Spells digits ('(' :: cs ++ [')']) .primary tree := by
  intro lx rest hlx hrest hclose
  have hopen : lx.cursor.rest = ['('] ++ (cs ++ ')' :: rest) := by simp [hrest]
  have hlx₁ := hlx.after ['('] (cs ++ ')' :: rest)
  have hlx₂ := hlx₁.after cs (')' :: rest)
  obtain ⟨o, ho, -, hyo⟩ := (isLexeme_openParen _).yields hlx hopen
  obtain ⟨ts, e, hts, he, hbare⟩ := h _ (')' :: rest) hlx₁ rfl (closes_cons (by decide) rest)
  obtain ⟨c, hc, -, hyc⟩ := (isLexeme_closeParen rest).yields hlx₂ rfl
  refine ⟨o :: ts ++ [c], e, ?_, .parenthesized ho hc he, hbare⟩
  simpa using hyo.trans (hts.trans hyc)

/-- An operand in its place, with parentheses if it needs them. -/
theorem wrap (h : Spells digits cs own tree) (place : Level) :
    Spells digits (wrap place own cs) place tree := by
  unfold DialogScript.wrap
  by_cases hle : own.height ≤ place.height
  · rw [if_pos hle]
    exact h.lift hle
  · rw [if_neg hle]
    exact (h.lift own.height_le_disjunction).parenthesized.lift (Nat.zero_le _)

/-- A minus sign in front of an expression. -/
theorem negate (h : Spells digits cs .negation tree) :
    Spells digits ('-' :: cs) .negation (.unary .negate tree default) := by
  intro lx rest hlx hrest hclose
  have hminus : lx.cursor.rest = ['-'] ++ (cs ++ rest) := hrest
  obtain ⟨t, ht, -, hyt⟩ := (isLexeme_minus _).yields hlx hminus
  obtain ⟨ts, e, hts, he, rfl⟩ := h _ rest (hlx.after ['-'] (cs ++ rest)) rfl hclose
  have hop : t.kind = UnaryOperator.negate.tokenKind := ht
  refine ⟨t :: ts, _, ?_, .unary rfl hop he, rfl⟩
  simpa using hyt.trans hts

/-- The word `not` in front of an expression. -/
theorem not (h : Spells digits cs .complement tree) :
    Spells digits ("not ".toList ++ cs) .complement (.unary .not tree default) := by
  intro lx rest hlx hrest hclose
  have hword : lx.cursor.rest = Keyword.notWord.spelling.toList ++ ' ' :: (cs ++ rest) := by
    rw [hrest]
    rfl
  have hne := hclose.append_ne_nil cs
  have hlx₁ := hlx.after Keyword.notWord.spelling.toList (' ' :: (cs ++ rest))
  obtain ⟨t, ht, -, hyt⟩ :=
    (isLexeme_keyword .notWord (closes_cons (by decide) _)).yields hlx hword
  obtain ⟨ts, e, hts, he, rfl⟩ := h _ rest (hlx₁.after [' '] (cs ++ rest)) rfl hclose
  have hop : t.kind = UnaryOperator.not.tokenKind := ht
  refine ⟨t :: ts, _, ?_, .unary rfl hop he, rfl⟩
  simpa [Keyword.spelling] using hyt.trans ((yields_blank hlx₁ rfl hne).trans hts)

/-- An operator between two expressions; the right one binds tighter. -/
theorem binary {op : BinaryOperator} {l r : List Char} {left right : Expr}
    (hl : Spells digits l op.level left) (hr : Spells digits r op.level.tighter right) :
    Spells digits (l ++ ' ' :: op.symbol.toList ++ ' ' :: r) op.level
      (.binary op left right default) := by
  intro lx rest hlx hrest hclose
  have hne := hclose.append_ne_nil r
  obtain ⟨ts, e, hts, he, rfl⟩ :=
    hl lx (' ' :: (op.symbol.toList ++ ' ' :: (r ++ rest))) hlx (by simp [hrest])
      (closes_cons (by decide) _)
  -- The lexer after the left operand, after the blank and after the operator.
  have hlx₁ := hlx.after l (' ' :: (op.symbol.toList ++ ' ' :: (r ++ rest)))
  have hlx₂ := hlx₁.after [' '] (op.symbol.toList ++ ' ' :: (r ++ rest))
  have hlx₃ := hlx₂.after op.symbol.toList (' ' :: (r ++ rest))
  obtain ⟨t, ht, -, hyt⟩ := (isLexeme_operator op _).yields hlx₂ rfl
  obtain ⟨us, f, hus, hf, rfl⟩ := hr _ rest (hlx₃.after [' '] (r ++ rest)) rfl hclose
  have hnext : op.level.Precedes op.level.tighter :=
    Level.precedes_tighter (by cases op <;> decide)
  refine ⟨ts ++ t :: us, _, ?_, .binary rfl hnext ht he hf, rfl⟩
  simpa using hts.trans ((yields_blank hlx₁ rfl (by simp)).trans
    (hyt.trans ((yields_blank hlx₃ rfl hne).trans hus)))

end Spells

/-! ### Texts that spell the parts of a string -/

/-- The tree of a text in a string, if there is one. -/
def literalTrees (text : List Char) : List Expr :=
  if text.isEmpty then [] else [.text (String.ofList text) default]

/-- In a string, the text `text` and what `cs` stands for are read as parts with given trees. -/
def SpellsParts (digits : DigitLimit) (text cs : List Char) (trees : List Expr) : Prop :=
  ∀ (lx : Lexer) (rest : List Char), lx.MidLine → lx.mode = .lineString →
    lx.cursor.rest = escape text ++ (cs ++ '"' :: rest) →
    ∃ ts c pieces, lx.Yields (ts ++ [c]) (lx.pop.after (escape text ++ cs ++ ['"']) rest) ∧
      c.kind = .stringEnd ∧ Pieces digits ts pieces ∧
      Expr.bareAll (Piece.parts pieces) = literalTrees text ++ trees

/-- The token of a text in a string is a piece of the string. -/
theorem pieces_fragment (text : List Char) (c d : Cursor) {us : List Token} {pieces : List Piece}
    (h : Pieces digits us pieces) :
    ∃ literal, Pieces digits (fragment text c d ++ us) (Parser.literalPieces literal ++ pieces) ∧
      Expr.bareAll (Parser.literalPart literal) = literalTrees text := by
  unfold fragment literalTrees
  by_cases hempty : text.isEmpty = true
  · rw [if_pos hempty, if_pos hempty]
    exact ⟨none, h, rfl⟩
  · rw [if_neg hempty, if_neg hempty]
    exact ⟨some (String.ofList text, (tokenBetween .text text c d).extent), .fragment rfl h, rfl⟩

namespace SpellsParts

variable {text cs ds : List Char} {trees : List Expr}

/-- The text that ends a string. -/
theorem nil (htext : ∀ c ∈ text, c ∉ unwritable) : SpellsParts digits text [] [] := by
  intro lx rest hlx hmode hrest
  obtain ⟨t, ht, hyields⟩ := yields_stringEnd hlx hmode htext hrest
  obtain ⟨literal, hpieces, hbare⟩ :=
    pieces_fragment text lx.cursor (lx.after (escape text) ('"' :: rest)).cursor .nil
  rw [List.append_nil] at hpieces
  refine ⟨_, t, _, ?_, ht, hpieces, ?_⟩
  · simpa using hyields
  · rw [List.append_nil, Parser.parts_literalPieces, hbare, List.append_nil]

/-- A literal part that is still to be read. -/
theorem literal (h : SpellsParts digits text cs trees) (hne : text ≠ []) :
    SpellsParts digits [] (escape text ++ cs) (.text (String.ofList text) default :: trees) := by
  intro lx rest hlx hmode hrest
  obtain ⟨ts, c, pieces, hyields, hc, hpieces, htrees⟩ :=
    h lx rest hlx hmode (by simpa using hrest)
  refine ⟨ts, c, pieces, by simpa using hyields, hc, hpieces, ?_⟩
  simpa [literalTrees, hne] using htrees

/-- The text before a hole, the expression in the hole and what follows it. -/
theorem hole {own : Level} {tree : Expr} (htext : ∀ c ∈ text, c ∉ unwritable)
    (hcs : Spells digits cs own tree) (hds : SpellsParts digits [] ds trees) :
    SpellsParts digits text ('{' :: cs ++ '}' :: ds) (tree :: trees) := by
  intro lx rest hlx hmode hrest
  have hbrace : lx.cursor.rest = escape text ++ '{' :: (cs ++ '}' :: (ds ++ '"' :: rest)) := by
    simp [hrest]
  obtain ⟨o, ho, hyo⟩ := yields_holeStart hlx hmode htext hbrace
  have hlx₁ : ((lx.push .hole).after (escape text ++ ['{'])
      (cs ++ '}' :: (ds ++ '"' :: rest))).InCode := ⟨(hlx.push .hole).after _ _, rfl⟩
  obtain ⟨ts, e, hts, he, hbare⟩ :=
    hcs.lift own.height_le_disjunction _ ('}' :: (ds ++ '"' :: rest)) hlx₁ rfl
      (closes_cons (by decide) _)
  obtain ⟨k, hk, hyk⟩ := yields_holeEnd (hlx₁.after cs ('}' :: (ds ++ '"' :: rest))) rfl rfl
  obtain ⟨us, c, pieces, hus, hc, hpieces, htrees⟩ :=
    hds (lx.after (escape text ++ ['{'] ++ cs ++ ['}']) (ds ++ '"' :: rest)) rest
      (hlx.after _ _) hmode rfl
  obtain ⟨literal, hall, hliteral⟩ :=
    pieces_fragment text lx.cursor
      (lx.after (escape text) ('{' :: (cs ++ '}' :: (ds ++ '"' :: rest)))).cursor
      (.hole ho hk he hpieces)
  refine ⟨_, c, _, ?_, hc, hall, ?_⟩
  · -- The hole is opened and closed again, so the rest is read in the string around it.
    have hrun := hyo.trans (hts.trans hyk)
    simp only [pop_after, after_after, pop_push] at hrun
    simpa using hrun.trans hus
  · rw [Parser.parts_literalPieces_hole, Expr.bareAll_append, hliteral, Expr.bareAll, hbare, htrees]
    rfl

end SpellsParts

private theorem bare_stringExpr (parts : List Expr) (span : Span) :
    (Parser.stringExpr parts span).bare = Parser.stringExpr (Expr.bareAll parts) default := by
  match parts with
  | [] => rfl
  | [e] => cases e <;> rfl
  | e :: f :: rest => cases e <;> rfl

/-- A string spells its parts. -/
theorem Spells.quoted {text cs : List Char} {trees : List Expr}
    (h : SpellsParts digits text cs trees)
    (hquote : ∀ rest, (escape text ++ (cs ++ '"' :: rest)).head? ≠ some '"') :
    Spells digits ('"' :: (escape text ++ cs) ++ ['"']) .primary
      (Parser.stringExpr (literalTrees text ++ trees) default) := by
  intro lx rest hlx hrest hclose
  have hopen : lx.cursor.rest = '"' :: (escape text ++ (cs ++ '"' :: rest)) := by simp [hrest]
  obtain ⟨o, ho, hyo⟩ := yields_stringStart hlx hopen (hquote rest)
  obtain ⟨ts, c, pieces, hts, hc, hpieces, htrees⟩ :=
    h _ rest ((hlx.toMidLine.push .lineString).after ['"'] _) rfl rfl
  refine ⟨o :: ts ++ [c], _, ?_, .string ho hc hpieces, ?_⟩
  · simpa using hyo.trans hts
  · rw [← Parser.stringExpr_eq, bare_stringExpr, htrees]

/-- The text of a string does not start with a quote. -/
theorem head?_escape {text : List Char} (htext : ∀ c ∈ text, c ∉ unwritable) (hne : text ≠ [])
    (rest : List Char) : (escape text ++ rest).head? ≠ some '"' := by
  cases text with
  | nil => exact absurd rfl hne
  | cons c text =>
    have hc : c ≠ '"' := by
      rintro rfl
      exact htext '"' (by simp) (by decide)
    rw [escape, List.flatMap_cons, escapeChar]
    split
    · simp
    · split
      · simp
      · split
        · simp
        · split
          · simp
          · simpa using hc

private theorem mem_unwritable_of_isWritable {s : String} (h : isWritable s = true) :
    ∀ c ∈ s.toList, c ∉ unwritable := by
  intro c hc
  have := List.all_eq_true.mp h c hc
  simpa using this

private theorem spells_text {s : String} (h : isWritable s = true) :
    Spells digits ('"' :: escape s.toList ++ ['"']) .primary (.text s default) := by
  by_cases hempty : s.toList = []
  · obtain rfl : s = "" := String.toList_inj.mp hempty
    intro lx rest hlx hrest hclose
    obtain ⟨t, ht, htext, hyields⟩ := yields_emptyText hlx hrest hclose
    exact ⟨[t], _, hyields, .text ht, by rw [htext]; rfl⟩
  · have htext := mem_unwritable_of_isWritable h
    have hend : SpellsParts digits s.toList [] [] := .nil htext
    have hspells := Spells.quoted hend fun rest =>
      head?_escape htext hempty _
    rw [List.append_nil] at hspells
    simpa [literalTrees, hempty, Parser.stringExpr] using hspells

private theorem exists_of_isText {t : Term} (h : t.isText = true) : ∃ s, t = .text s := by
  cases t <;> first | exact ⟨_, rfl⟩ | cases h

private theorem renderParts_hole {t : Term} (h : t.isText = false) (rest : List Term) :
    Term.renderParts (t :: rest) = '{' :: t.render ++ '}' :: Term.renderParts rest := by
  cases t <;> first | rfl | cases h

private theorem properParts_hole {t : Term} (h : t.isText = false) (afterText : Bool)
    (rest : List Term) :
    Term.properParts afterText (t :: rest) = Term.properParts false rest := by
  cases t <;> first | rfl | cases h

private theorem stringExpr_trees {parts : List Term} (h : parts.any (!·.isText) = true) :
    Parser.stringExpr (Term.trees parts) default = .template (Term.trees parts) default := by
  match parts with
  | [] => cases h
  | [t] => cases t <;> first | rfl | simp [Term.isText] at h
  | t :: u :: rest => cases t <;> rfl

/-- The parts of a template do not start with a quote. -/
theorem head?_renderParts {parts : List Term} (hne : parts ≠ [])
    (hproper : Term.properParts false parts = true) (hparts : Term.allWellFormed parts = true)
    (rest : List Char) : (Term.renderParts parts ++ rest).head? ≠ some '"' := by
  match parts with
  | [] => exact absurd rfl hne
  | t :: more =>
    cases t with
    | text s =>
      rw [Term.properParts, Bool.and_eq_true, Bool.and_eq_true] at hproper
      rw [Term.allWellFormed, Term.wellFormed, Bool.and_eq_true] at hparts
      have hs : s.toList ≠ [] := by
        intro hempty
        obtain rfl : s = "" := String.toList_inj.mp hempty
        exact absurd hproper.1.2 (by decide)
      rw [Term.renderParts, List.append_assoc]
      exact head?_escape (mem_unwritable_of_isWritable hparts.1) hs _
    | _ => simp [Term.renderParts]

/-! ### Numbers -/

private theorem isDigits_of_isDigitRun {cs : List Char} (h : isDigitRun cs = true) :
    Numeral.IsDigits cs := by
  rw [isDigitRun, Bool.and_eq_true, List.all_eq_true] at h
  exact ⟨by simpa using h.1, h.2⟩

private theorem spells_integer {n : Nat} (h : n ≤ 2147483647) :
    Spells digits (Nat.toDigits 10 n) .primary (.integer n default) := by
  refine Spells.of_lexeme (fun rest => isLexeme_integer (isDigits_toDigits n)) ?_
  intro t ht htext
  have hvalue : Numeral.value t.text.toList = n := by
    rw [htext, String.toList_ofList, value_toDigits]
  -- In range a number has ten digits at most.
  have hlength : t.text.length ≤ 10 := by
    rw [htext, String.length_ofList]
    exact (Nat.length_toDigits_le_iff (by decide) (by decide)).mpr (by omega)
  refine ⟨_, .shortInteger ht (by omega) (by omega), ?_⟩
  rw [hvalue]
  rfl

private theorem spells_float {whole fraction : List Char} (hwhole : Numeral.IsDigits whole)
    (hfraction : Numeral.IsDigits fraction) :
    Spells digits (whole ++ '.' :: fraction) .primary
      (.float (Numeral.single whole fraction) default) := by
  refine Spells.of_lexeme (fun rest => isLexeme_float hwhole hfraction) ?_
  intro t ht htext
  exact ⟨_, .float ht (by rw [htext, String.toList_ofList]) hwhole hfraction, rfl⟩

/-! ### Expressions -/

private theorem spells_boolean (b : Bool) :
    Spells digits (Term.render (.boolean b)) .primary (.boolean b default) := by
  cases b with
  | true =>
    exact Spells.of_lexeme (fun rest => isLexeme_keyword .trueWord) fun t ht _ =>
      ⟨_, .trueWord ht, rfl⟩
  | false =>
    exact Spells.of_lexeme (fun rest => isLexeme_keyword .falseWord) fun t ht _ =>
      ⟨_, .falseWord ht, rfl⟩

private theorem spells_variable {name : String} (h : isNameText name = true) :
    Spells digits name.toList .primary (.variable name default) := by
  refine Spells.of_lexeme (fun rest => isLexeme_name h) ?_
  intro t ht htext
  rw [String.ofList_toList] at htext
  exact ⟨_, .variable ht, by rw [htext]; rfl⟩

mutual

/-- The text of an expression spells its tree. -/
theorem spells_render (t : Term) (h : t.wellFormed = true) :
    Spells digits t.render t.level t.tree := by
  match t with
  | .integer n =>
    rw [Term.wellFormed, decide_eq_true_eq] at h
    exact spells_integer h
  | .float whole fraction =>
    rw [Term.wellFormed, Bool.and_eq_true] at h
    exact spells_float (isDigits_of_isDigitRun h.1) (isDigits_of_isDigitRun h.2)
  | .boolean b => exact spells_boolean b
  | .text s => exact spells_text h
  | .template parts =>
    rw [Term.wellFormed, Bool.and_eq_true, Bool.and_eq_true] at h
    obtain ⟨⟨hhole, hproper⟩, hparts⟩ := h
    have hne : parts ≠ [] := by
      rintro rfl
      cases hhole
    have hspells := Spells.quoted
      (spellsParts_renderParts parts hparts [] (by simp) hproper)
      fun rest => head?_renderParts hne hproper hparts _
    rw [literalTrees, List.isEmpty_nil, if_pos rfl, List.nil_append,
      stringExpr_trees hhole] at hspells
    exact hspells
  | .variable name => exact spells_variable h
  | .unary .not operand => exact ((spells_render operand h).wrap .complement).not
  | .unary .negate operand => exact ((spells_render operand h).wrap .negation).negate
  | .binary op left right =>
    rw [Term.wellFormed, Bool.and_eq_true] at h
    exact Spells.binary ((spells_render left h.1).wrap op.level)
      ((spells_render right h.2).wrap op.level.tighter)

/-- The text of the parts of a template, after a literal part that is still to be read, spells
their trees. -/
theorem spellsParts_renderParts (parts : List Term) (h : Term.allWellFormed parts = true)
    (text : List Char) (htext : ∀ c ∈ text, c ∉ unwritable)
    (hproper : Term.properParts (!text.isEmpty) parts = true) :
    SpellsParts digits text (Term.renderParts parts) (Term.trees parts) := by
  match parts with
  | [] => exact SpellsParts.nil htext
  | t :: rest =>
    rw [Term.allWellFormed, Bool.and_eq_true] at h
    have hterm := spells_render t h.1
    have hrest := spellsParts_renderParts rest h.2
    by_cases ht : t.isText = true
    · obtain ⟨s, rfl⟩ := exists_of_isText ht
      rw [Term.properParts, Bool.and_eq_true, Bool.and_eq_true] at hproper
      obtain ⟨⟨hempty, hs⟩, hproper⟩ := hproper
      -- No text comes before another one, so this one is all that is still to be read.
      obtain rfl : text = [] := by simpa using hempty
      have hne : s.toList ≠ [] := by
        rw [bne_iff_ne] at hs
        exact fun hnil => hs (String.toList_inj.mp hnil)
      have hspells := (hrest s.toList (mem_unwritable_of_isWritable h.1)
        (by rwa [List.isEmpty_eq_false_iff.mpr hne])).literal hne
      rwa [String.ofList_toList] at hspells
    · rw [Bool.not_eq_true] at ht
      rw [properParts_hole ht] at hproper
      rw [renderParts_hole ht]
      exact SpellsParts.hole htext hterm (hrest [] (by simp) hproper)

end

/-! ### Lines -/

/-- A text within one line. -/
def Unbroken (cs : List Char) : Prop := ∀ c ∈ cs, isBreak c = false

/-- Two parts of a line. -/
theorem Unbroken.append {cs ds : List Char} (hcs : Unbroken cs) (hds : Unbroken ds) :
    Unbroken (cs ++ ds) :=
  List.forall_mem_append.mpr ⟨hcs, hds⟩

theorem Unbroken.cons {c : Char} {cs : List Char} (hc : isBreak c = false) (hcs : Unbroken cs) :
    Unbroken (c :: cs) :=
  List.forall_mem_cons.mpr ⟨hc, hcs⟩

theorem unbroken_letters {cs : List Char} (h : cs.all (!isBreak ·) = true) : Unbroken cs := by
  intro c hc
  simpa using List.all_eq_true.mp h c hc

/-- The characters that break a line. -/
theorem eq_of_isBreak {c : Char} (h : isBreak c = true) :
    c = '\n' ∨ c = '\r' ∨ c = '\u2028' ∨ c = '\u2029' ∨ c = '\u0085' := by
  simpa [isBreak, or_assoc] using h

private theorem isBreak_of_continuesName {c : Char} (h : Cursor.continuesName c = true) :
    isBreak c = false := by
  rw [Bool.eq_false_iff]
  intro hbreak
  rcases eq_of_isBreak hbreak with rfl | rfl | rfl | rfl | rfl <;>
    exact absurd h (by decide +kernel)

theorem unbroken_digits {cs : List Char} (h : Numeral.IsDigits cs) : Unbroken cs := by
  intro c hc
  rw [Bool.eq_false_iff]
  intro hbreak
  have hdigit := h.2 c hc
  rcases eq_of_isBreak hbreak with rfl | rfl | rfl | rfl | rfl <;> exact absurd hdigit (by decide)

theorem unbroken_name {s : String} (h : isNameText s = true) : Unbroken s.toList := by
  unfold isNameText at h
  split at h
  · contradiction
  · rename_i c more hs
    rw [Bool.and_eq_true, Bool.and_eq_true, List.all_eq_true] at h
    obtain ⟨⟨hc, hmore⟩, -⟩ := h
    rw [hs]
    exact .cons (isBreak_of_continuesName (continuesName_of_startsName hc))
      fun d hd => isBreak_of_continuesName (hmore d hd)

/-- What is written with escapes stays on the line. Of the characters that no escape writes, quotes
and comments do not end a line. -/
theorem unbroken_escape {text : List Char}
    (h : ∀ c ∈ text, c ∈ unwritable → c = '"' ∨ c = '#') : Unbroken (escape text) := by
  intro d hd
  obtain ⟨c, hc, hd⟩ := List.mem_flatMap.mp hd
  rw [Bool.eq_false_iff]
  intro hbreak
  have hplain := h c hc
  rcases eq_of_isBreak hbreak with rfl | rfl | rfl | rfl | rfl <;>
    grind [escapeChar, unwritable]

private theorem unbroken_escape_of_isWritable {s : String} (h : isWritable s = true) :
    Unbroken (escape s.toList) :=
  unbroken_escape fun c hc hmem => absurd hmem (mem_unwritable_of_isWritable h c hc)

private theorem unbroken_wrap {cs : List Char} (h : Unbroken cs) (place own : Level) :
    Unbroken (wrap place own cs) := by
  unfold wrap
  split
  · exact h
  · exact (Unbroken.cons (by decide) h).append (unbroken_letters (by decide))

private theorem unbroken_symbol (op : BinaryOperator) : Unbroken op.symbol.toList := by
  cases op <;> exact unbroken_letters (by decide)

mutual

/-- A written expression stays on its line. -/
theorem unbroken_render (t : Term) (h : t.wellFormed = true) : Unbroken t.render := by
  match t with
  | .integer n => exact unbroken_digits (isDigits_toDigits n)
  | .float whole fraction =>
    rw [Term.wellFormed, Bool.and_eq_true] at h
    exact (unbroken_digits (isDigits_of_isDigitRun h.1)).append
      (.cons (by decide) (unbroken_digits (isDigits_of_isDigitRun h.2)))
  | .boolean true => exact unbroken_letters (by decide)
  | .boolean false => exact unbroken_letters (by decide)
  | .text s =>
    exact (Unbroken.cons (by decide) (unbroken_escape_of_isWritable h)).append
      (unbroken_letters (by decide))
  | .template parts =>
    rw [Term.wellFormed, Bool.and_eq_true] at h
    exact (Unbroken.cons (by decide) (unbroken_renderParts parts h.2)).append
      (unbroken_letters (by decide))
  | .variable name => exact unbroken_name h
  | .unary .not operand =>
    exact (unbroken_letters (by decide)).append (unbroken_wrap (unbroken_render operand h) _ _)
  | .unary .negate operand =>
    exact .cons (by decide) (unbroken_wrap (unbroken_render operand h) _ _)
  | .binary op left right =>
    rw [Term.wellFormed, Bool.and_eq_true] at h
    exact ((unbroken_wrap (unbroken_render left h.1) _ _).append
      (.cons (by decide) (unbroken_symbol op))).append
      (.cons (by decide) (unbroken_wrap (unbroken_render right h.2) _ _))

theorem unbroken_renderParts (parts : List Term) (h : Term.allWellFormed parts = true) :
    Unbroken (Term.renderParts parts) := by
  match parts with
  | [] => exact unbroken_letters (by decide)
  | t :: rest =>
    rw [Term.allWellFormed, Bool.and_eq_true] at h
    have hterm := unbroken_render t h.1
    have hrest := unbroken_renderParts rest h.2
    by_cases ht : t.isText = true
    · obtain ⟨s, rfl⟩ := exists_of_isText ht
      exact (unbroken_escape_of_isWritable h.1).append hrest
    · rw [Bool.not_eq_true] at ht
      rw [renderParts_hole ht]
      exact (Unbroken.cons (by decide) hterm).append (.cons (by decide) hrest)

end

end DialogScript
