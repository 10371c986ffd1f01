import DialogScript.Proofs.Storing.Loading

/-!
# Storing and loading are inverse to each other

A program is the same after it was stored and loaded, and a stored form is the same after it was
loaded and stored again (`load_toJson_inverse`). The first half is the theory of loading; the second
one follows from it for every document that is the stored form of some program. The comparison
that a program can make itself, `Program.survivesStoring`, is decided node by node, and finds each
tree equal to itself.
-/

namespace DialogScript

/-! ### Trees are the same as themselves -/

namespace Json

mutual

/-- A document is the same as itself. -/
theorem same_self (j : Json) : j.same j = true := by
  match j with
  | .null => rfl
  | .boolean _ | .integer _ | .real _ | .text _ => simp [same]
  | .array items => exact sameItems_self items
  | .object fields => exact sameFields_self fields

theorem sameItems_self (items : List Json) : sameItems items items = true := by
  match items with
  | [] => rfl
  | j :: rest => simp [sameItems, same_self j, sameItems_self rest]

theorem sameFields_self (fields : List (String × Json)) : sameFields fields fields = true := by
  match fields with
  | [] => rfl
  | (key, j) :: rest => simp [sameFields, same_self j, sameFields_self rest]

end

instance : ReflBEq Json := ⟨same_self _⟩

end Json

namespace Expr

mutual

/-- An expression is the same as itself, spans included. -/
theorem same_self (e : Expr) : e.same e = true := by
  match e with
  | .integer _ _ | .float _ _ | .boolean _ _ | .text _ _ | .variable _ _ | .foreign _ _ =>
    simp [same]
  | .template parts _ => simp [same, sameParts_self parts]
  | .unary _ operand _ => simp [same, same_self operand]
  | .binary _ left right _ => simp [same, same_self left, same_self right]

theorem sameParts_self (parts : List Expr) : sameParts parts parts = true := by
  match parts with
  | [] => rfl
  | e :: rest => simp [sameParts, same_self e, sameParts_self rest]

end

instance : ReflBEq Expr := ⟨same_self _⟩

end Expr

namespace Stmt

mutual

/-- A statement is the same as itself, spans included. -/
theorem same_self (s : Stmt) : s.same s = true := by
  match s with
  | .assign _ _ _ | .output _ _ | .input _ _ _ | .expression _ => simp [same]
  | .block body _ => simp [same, sameAll_self body]
  | .loop _ body _ => simp [same, same_self body]
  | .choice first others otherwise _ =>
    simp [same, same_self first, sameAll_self others, same_self otherwise]
  | .branch _ body _ => simp [same, same_self body]
  | .program body _ => simp [same, sameAll_self body]
  | .absent => rfl

theorem sameAll_self (ss : List Stmt) : sameAll ss ss = true := by
  match ss with
  | [] => rfl
  | s :: rest => simp [sameAll, same_self s, sameAll_self rest]

end

instance : ReflBEq Stmt := ⟨same_self _⟩

end Stmt

/-! ### Programs -/

namespace Program

/-- The comparison that a program makes itself finds no difference. -/
theorem survivesStoring_of_storable {p : Program} (h : p.Storable) (digits : DigitLimit) :
    p.survivesStoring digits = true := by
  have hself : (p == p) = true := by
    change (p.statements == p.statements && p.source == p.source) = true
    simp
  rw [survivesStoring, load_toJson h]
  exact hself

/-- Every program whose nodes are in their places is the same after storing and loading it, and
every stored form of such a program is the same after loading and storing it. How many digits can
be read as one whole number does not matter. -/
theorem load_toJson_inverse (digits : DigitLimit) :
    (∀ p : Program, p.Storable →
      load p.toJson digits = .ok (.program p.statements p.source, p) ∧
        p.survivesStoring digits = true) ∧
    ∀ form : Json, (∃ p : Program, p.Storable ∧ p.toJson = form) →
      ∃ root p, load form digits = .ok (root, p) ∧ p.Storable ∧ root.toJson = form ∧
        p.toJson = form := by
  refine ⟨fun p h => ⟨load_toJson h, survivesStoring_of_storable h digits⟩, ?_⟩
  -- The form of a program is loaded as that program, which has this form.
  rintro form ⟨p, h, rfl⟩
  exact ⟨_, p, load_toJson h, h, rfl, rfl⟩

/-- A program with a node of every kind and with every operator. -/
def everyNode : Program :=
  let span := Span.point 3 2
  let limit : Expr := .float (.infinite true) span
  let condition (op : BinaryOperator) : Expr := .binary op limit (.variable "x" span) span
  let body : Stmt := .block [.output (.text "" span) span] span
  ⟨[.assign "x" (.template (BinaryOperator.all.map condition) span) span,
    .output (.template [.unary .not (.boolean true span) span,
      .unary .negate (.integer 2147483648 span) span] span) span,
    .input "y" (.text "number") span,
    .loop (condition .sub) body span,
    .choice (.branch (condition .and) body span)
      [.branch (condition .or) body span, .branch (condition .xor) (.block [] span) span] body span,
    .choice (.branch (condition .less) body span) [] .absent span], .inline "x = 1\n"⟩

/-- The programs that can be stored are not only those of texts: there are floats without an end
and integers out of range in this one. -/
theorem storable_everyNode : everyNode.Storable := by
  have hcondition : ∀ (span : Span) (op : BinaryOperator),
      Expr.Storable (.binary op (.float (.infinite true) span) (.variable "x" span) span) :=
    fun _ _ => .binary .float .variable
  have hbody : ∀ span : Span, Stmt.Storable (.block [.output (.text "" span) span] span) :=
    fun _ => .block (by simpa using .output .text)
  refine ⟨rfl, ?_⟩
  simp only [everyNode, List.forall_mem_cons]
  refine ⟨.assign (.template ?_), .output (.template ?_), .input, .loop (hcondition _ _) (hbody _),
    .choice (.branch (hcondition _ _) (hbody _)) ?_ (hbody _),
    .choice (.branch (hcondition _ _) (hbody _)) (by simp) .absent, by simp⟩
  · intro e he
    obtain ⟨op, -, rfl⟩ := List.mem_map.mp he
    exact hcondition _ _
  · simpa using ⟨.unary .boolean, .unary .integer⟩
  · simpa using ⟨.branch (hcondition _ _) (hbody _), .branch (hcondition _ _) (.block (by simp))⟩

/-- A program with nodes of every kind comes back from its stored form. -/
theorem load_toJson_everyNode :
    everyNode.Storable ∧ everyNode.survivesStoring .standard = true ∧
      ∃ root p, load everyNode.toJson .standard = .ok (root, p) ∧ root.toJson = everyNode.toJson ∧
        p.toJson = everyNode.toJson := by
  obtain ⟨hstored, hform⟩ := load_toJson_inverse .standard
  obtain ⟨root, p, hload, -, hroot, hp⟩ := hform _ ⟨everyNode, storable_everyNode, rfl⟩
  exact ⟨storable_everyNode, (hstored _ storable_everyNode).2, root, p, hload, hroot, hp⟩

end Program

end DialogScript
