import DialogScript.Program.Loader
import DialogScript.Proofs.Parsing.Trees

/-!
# Stored trees are loaded as they were

Loading looks for the fields of a node by their keys, and the fields of a stored node can all be
found (`Json.field?_location`, `Json.field?_type`). So a tree is the same after storing and loading
it (`Expr.load_toJson`, `Stmt.load_toJson`), and a program is (`Program.load_toJson`), if each node
in the place of an expression is one and each source has its kind by its word (`Storable`). Proper
trees are of this form.
-/

namespace DialogScript

open Json

variable {digits : DigitLimit}

/-! ### Fields -/

namespace Json

private theorem findField_append (key : String) (front back : List (String × Json)) :
    findField key (front ++ back) = (findField key back).or (findField key front) := by
  induction front with
  | nil => simp [findField]
  | cons f front ih =>
    obtain ⟨k, value⟩ := f
    simp only [List.cons_append, findField, ih]
    cases findField key back <;> rfl

private theorem field_eq_ok {j value : Json} (key : String) (h : j.field? key = some value) :
    j.field key = .ok ⟨value, sizeOf_field? h⟩ := by
  unfold field
  split
  · rename_i found hfound
    cases hfound.symm.trans h
    rfl
  · rename_i hnone
    cases hnone.symm.trans h

/-- How to load the documents inside a document as nodes. -/
def nodeLoader (digits : DigitLimit) (j : Json) : j.PartLoader := fun part =>
  Stmt.load digits part.1

private theorem child_nodeLoader {j value : Json} (key : String) (h : j.field? key = some value) :
    (j.nodeLoader digits).child key = Stmt.load digits value := by
  rw [PartLoader.child, field_eq_ok key h]
  rfl

private theorem children_nodeLoader {j : Json} {items : List Json} (key : String)
    (h : j.field? key = some (.array items)) :
    (j.nodeLoader digits).children key = items.mapM (Stmt.load digits) := by
  rw [PartLoader.children, field_eq_ok key h]
  change List.mapM _ (items.attach.map _) = _
  rw [List.mapM_map]
  simp [nodeLoader]

private theorem optionalChild_nodeLoader {j value : Json} (key : String)
    (h : j.field? key = some value) :
    (j.nodeLoader digits).optionalChild key = Stmt.load digits value := by
  unfold PartLoader.optionalChild
  split
  · rename_i found hfound
    cases hfound.symm.trans h
    rfl
  · rename_i hnone
    cases hnone.symm.trans h

section Nodes

variable {type key : String} {fields : List (String × Json)} {span : Span}

private theorem field?_location :
    (nodeJson type fields span).field? "location" = some span.toJson := by
  rw [nodeJson, field?, findField_append]
  rfl

private theorem field?_type (h : findField "type" fields = none) :
    (nodeJson type fields span).field? "type" = some (.text type) := by
  simp [nodeJson, field?, findField_append, findField, h]

end Nodes

end Json

@[simp]
theorem Span.load_toJson (s : Span) : Span.load s.toJson = .ok s := by
  obtain ⟨line, initial, final, h⟩ := s
  rw [Span.load, field_eq_ok "line" rfl, field_eq_ok "initial" rfl, field_eq_ok "final" rfl]
  simp [isComparable, isNumber, asPlace, Span.make, h, bind, Except.bind, pure, Except.pure]

/-- A stored node is loaded by its type, with its own span. -/
theorem Stmt.load_nodeJson {type : String} {fields : List (String × Json)} {span : Span}
    (hfields : findField "type" fields = none) (htype : type ≠ "Program") :
    Stmt.load digits (nodeJson type fields span)
      = ((nodeJson type fields span).nodeLoader digits).statement digits (.text type) span := by
  have hprogram : (Json.text type == Json.text "Program") = false := by
    simp [BEq.beq, Json.same, htype]
  rw [Stmt.load, PartLoader.node.eq_def]
  split
  · rename_i hnull
    simp [nodeJson] at hnull
  · simp [field?_type hfields, hprogram, field_eq_ok _ field?_location, bind, Except.bind]
    rfl
  · simp_all [nodeJson]

/-- If each of some things is loaded from its stored form, all of them are. -/
theorem mapM_load {α : Type} {form : α → Json} {node : α → Stmt} {xs : List α}
    (h : ∀ x ∈ xs, Stmt.load digits (form x) = .ok (node x)) :
    (xs.map form).mapM (Stmt.load digits) = .ok (xs.map node) := by
  induction xs with
  | nil => rfl
  | cons x xs ih =>
    obtain ⟨hfirst, hrest⟩ := List.forall_mem_cons.mp h
    rw [List.map_cons, List.mapM_cons, hfirst, ih hrest]
    rfl

/-! ### Trees that can be stored -/

/-- An expression with nothing but expressions in it. -/
inductive Expr.Storable : Expr → Prop
  | integer {n : Int} {span : Span} : Storable (.integer n span)
  | float {x : Floating} {span : Span} : Storable (.float x span)
  | boolean {b : Bool} {span : Span} : Storable (.boolean b span)
  | text {s : String} {span : Span} : Storable (.text s span)
  | template {parts : List Expr} {span : Span} (h : ∀ e ∈ parts, Storable e) :
      Storable (.template parts span)
  | variable {name : String} {span : Span} : Storable (.variable name span)
  | unary {op : UnaryOperator} {operand : Expr} {span : Span} (h : Storable operand) :
      Storable (.unary op operand span)
  | binary {op : BinaryOperator} {left right : Expr} {span : Span} (hl : Storable left)
      (hr : Storable right) : Storable (.binary op left right span)

/-- A source whose kind is the one that its word stands for. -/
def Source.Storable (s : Source) : Prop := SourceKind.ofWord s.kind.word = s.kind

/-- A statement, or what may stand in the place of one, with an expression in each place of an
expression. -/
inductive Stmt.Storable : Stmt → Prop
  | assign {name : String} {value : Expr} {span : Span} (h : value.Storable) :
      Storable (.assign name value span)
  | output {value : Expr} {span : Span} (h : value.Storable) : Storable (.output value span)
  | input {name : String} {form : Json} {span : Span} : Storable (.input name form span)
  | block {body : List Stmt} {span : Span} (h : ∀ s ∈ body, Storable s) :
      Storable (.block body span)
  | loop {condition : Expr} {body : Stmt} {span : Span} (hcondition : condition.Storable)
      (hbody : Storable body) : Storable (.loop condition body span)
  | choice {first otherwise : Stmt} {others : List Stmt} {span : Span} (hfirst : Storable first)
      (hothers : ∀ s ∈ others, Storable s) (hotherwise : Storable otherwise) :
      Storable (.choice first others otherwise span)
  | branch {condition : Expr} {body : Stmt} {span : Span} (hcondition : condition.Storable)
      (hbody : Storable body) : Storable (.branch condition body span)
  | expression {e : Expr} (h : e.Storable) : Storable (.expression e)
  | program {body : List Stmt} {source : Source} (hsource : source.Storable)
      (h : ∀ s ∈ body, Storable s) : Storable (.program body source)
  | absent : Storable .absent

/-- A program of statements that can be stored. -/
structure Program.Storable (p : Program) : Prop where
  source : p.source.Storable
  statements : ∀ s ∈ p.statements, s.Storable

theorem Expr.Proper.storable {e : Expr} (h : e.Proper) : e.Storable := by
  induction h with
  | integer => exact .integer
  | float => exact .float
  | boolean => exact .boolean
  | text => exact .text
  | template _ hparts => exact .template hparts
  | «variable» => exact .variable
  | unary _ hoperand => exact .unary hoperand
  | binary _ _ hleft hright => exact .binary hleft hright

theorem Stmt.Proper.storable {s : Stmt} (h : s.Proper) : s.Storable := by
  induction h with
  | assign h => exact .assign h.storable
  | output h => exact .output h.storable
  | input => exact .input
  | block _ hbody => exact .block hbody
  | loop hcondition _ hbody => exact .loop hcondition.storable hbody
  | choice _ _ _ hfirst hothers hotherwise => exact .choice hfirst hothers hotherwise
  | branch hcondition _ hbody => exact .branch hcondition.storable hbody
  | absent => exact .absent

/-! ### Expressions -/

theorem Expr.partsToJson_eq_map (parts : List Expr) : partsToJson parts = parts.map toJson := by
  induction parts with
  | nil => rfl
  | cons e parts ih => rw [partsToJson, ih, List.map_cons]

private theorem UnaryOperator.asOperator_symbol (op : UnaryOperator) :
    (Json.text op.symbol).asOperator ofSymbol? = .ok op := by
  rw [asOperator, ofSymbol?_symbol]

private theorem BinaryOperator.asOperator_symbol (op : BinaryOperator) :
    (Json.text op.symbol).asOperator ofSymbol? = .ok op := by
  rw [asOperator, ofSymbol?_symbol]

/-- An expression is loaded as it was stored. -/
theorem Expr.load_toJson {e : Expr} (h : e.Storable) :
    Stmt.load digits e.toJson = .ok (.expression e) := by
  match h with
  | .integer | .float | .boolean | .text =>
    rw [Expr.toJson, Stmt.load_nodeJson rfl (by decide)]
    simp only [PartLoader.statement, PartLoader.expression]
    rw [field_eq_ok "value" rfl]
    rfl
  | .variable =>
    rw [Expr.toJson, Stmt.load_nodeJson rfl (by decide)]
    simp only [PartLoader.statement, PartLoader.expression]
    rw [field_eq_ok "name" rfl]
    rfl
  | .template h =>
    rename_i parts span
    have hparts : (parts.map toJson).mapM (Stmt.load digits) = .ok (parts.map .expression) :=
      mapM_load fun e he => Expr.load_toJson (h e he)
    rw [Expr.toJson, partsToJson_eq_map, Stmt.load_nodeJson rfl (by decide)]
    simp only [PartLoader.statement, PartLoader.expression]
    rw [children_nodeLoader "parts" rfl, hparts]
    simp [bind, Except.bind, pure, Except.pure, Function.comp_def, Stmt.asExpr]
  | .unary h =>
    rename_i op operand span
    rw [Expr.toJson, Stmt.load_nodeJson rfl (by decide)]
    simp only [PartLoader.statement, PartLoader.expression]
    rw [field_eq_ok "op" rfl, child_nodeLoader "operand" rfl, Expr.load_toJson h]
    simp only [bind, Except.bind, op.asOperator_symbol]
    rfl
  | .binary hl hr =>
    rename_i op left right span
    rw [Expr.toJson, Stmt.load_nodeJson rfl (by decide)]
    simp only [PartLoader.statement, PartLoader.expression]
    rw [field_eq_ok "op" rfl, child_nodeLoader "left" rfl, child_nodeLoader "right" rfl,
      Expr.load_toJson hl, Expr.load_toJson hr]
    simp only [bind, Except.bind, op.asOperator_symbol]
    rfl
termination_by structural h

/-! ### Statements -/

theorem Stmt.allToJson_eq_map (ss : List Stmt) : allToJson ss = ss.map toJson := by
  induction ss with
  | nil => rfl
  | cons s ss ih => rw [allToJson, ih, List.map_cons]

/-- A source is loaded as it was stored. -/
theorem Source.load_toJson {s : Source} (h : s.Storable) : Source.load (some s.toJson) = .ok s := by
  obtain ⟨kind, value⟩ := s
  have hload : Source.load (some (Source.mk kind value).toJson)
      = .ok ⟨SourceKind.ofWord kind.word, value⟩ := rfl
  have hkind : SourceKind.ofWord kind.word = kind := h
  rw [hload, hkind]

/-- A stored program is loaded with its source and the statements that its array holds. -/
theorem Stmt.load_program {body : List Stmt} {source : Source} (hsource : source.Storable)
    (hbody : (body.map toJson).mapM (Stmt.load digits) = .ok body) :
    Stmt.load digits (Stmt.program body source).toJson = .ok (.program body source) := by
  rw [Stmt.load]
  change (PartLoader.node digits (nodeLoader digits _)) = _
  rw [Stmt.toJson, allToJson_eq_map, PartLoader.node, children_nodeLoader "statements" rfl, hbody]
  simp only [field?, findField, String.reduceEq, if_true, if_false, Source.load_toJson hsource]
  rfl

/-- A statement is loaded as it was stored. -/
theorem Stmt.load_toJson {s : Stmt} (h : s.Storable) : Stmt.load digits s.toJson = .ok s := by
  match h with
  | .assign h =>
    rw [Stmt.toJson, Stmt.load_nodeJson rfl (by decide)]
    simp only [PartLoader.statement]
    rw [field_eq_ok "name" rfl, child_nodeLoader "expression" rfl, Expr.load_toJson h]
    rfl
  | .output h =>
    rw [Stmt.toJson, Stmt.load_nodeJson rfl (by decide)]
    simp only [PartLoader.statement]
    rw [child_nodeLoader "expression" rfl, Expr.load_toJson h]
    rfl
  | .input =>
    rw [Stmt.toJson, Stmt.load_nodeJson rfl (by decide)]
    simp only [PartLoader.statement]
    rw [field_eq_ok "name" rfl]
    rfl
  | .block h =>
    rename_i body span
    have hbody : (body.map toJson).mapM (Stmt.load digits) = .ok (body.map id) :=
      mapM_load fun s hs => Stmt.load_toJson (h s hs)
    rw [Stmt.toJson, allToJson_eq_map, Stmt.load_nodeJson rfl (by decide)]
    simp only [PartLoader.statement]
    rw [children_nodeLoader "statements" rfl, hbody, List.map_id]
    rfl
  | .loop hcondition hbody =>
    rw [Stmt.toJson, Stmt.load_nodeJson rfl (by decide)]
    simp only [PartLoader.statement]
    rw [child_nodeLoader "condition" rfl, child_nodeLoader "body" rfl,
      Expr.load_toJson hcondition, Stmt.load_toJson hbody]
    rfl
  | .branch hcondition hbody =>
    rw [Stmt.toJson, Stmt.load_nodeJson rfl (by decide)]
    simp only [PartLoader.statement]
    rw [child_nodeLoader "condition" rfl, child_nodeLoader "block" rfl,
      Expr.load_toJson hcondition, Stmt.load_toJson hbody]
    rfl
  | .choice hfirst hothers hotherwise =>
    rename_i first otherwise others span
    have hrest : (others.map toJson).mapM (Stmt.load digits) = .ok (others.map id) :=
      mapM_load fun s hs => Stmt.load_toJson (hothers s hs)
    rw [Stmt.toJson, allToJson_eq_map, Stmt.load_nodeJson rfl (by decide)]
    simp only [PartLoader.statement]
    rw [child_nodeLoader "if_branch" rfl, children_nodeLoader "else_if_branches" rfl,
      optionalChild_nodeLoader "else_block" rfl, Stmt.load_toJson hfirst, hrest, List.map_id,
      Stmt.load_toJson hotherwise]
    rfl
  | .expression h =>
    rw [Stmt.toJson, Expr.load_toJson h]
  | .program hsource h =>
    rename_i body source
    have hbody : (body.map toJson).mapM (Stmt.load digits) = .ok (body.map id) :=
      mapM_load fun s hs => Stmt.load_toJson (h s hs)
    exact Stmt.load_program hsource (hbody.trans (by rw [List.map_id]))
  | .absent =>
    rw [Stmt.toJson, Stmt.load, PartLoader.node]
    rfl
termination_by structural h

/-! ### Programs -/

/-- A program is loaded as it was stored. -/
theorem Program.load_toJson {p : Program} (h : p.Storable) :
    Program.load p.toJson digits = .ok (.program p.statements p.source, p) := by
  rw [Program.load, Program.toJson, Stmt.load_toJson (.program h.source h.statements)]
  rfl

end DialogScript
