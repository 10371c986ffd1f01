import DialogScript.Token

/-!
# Classes of tokens

What a token does for the shape of a program follows from its kind. The tokens of the layout bound
lines and blocks, and all others are a line's own (`TokenKind.isLayout`). Expressions are bounded
by the layout and by the signs of statements (`TokenKind.isBoundary`). Blocks are counted by the
tokens that open and close them.
-/

namespace DialogScript

/-- Whether a kind of tokens bounds lines or blocks. -/
def TokenKind.isLayout : TokenKind → Bool
  | .indent => true
  | .dedent => true
  | .lineEnd => true
  | .sourceEnd => true
  | _ => false

/-- Whether tokens of a kind bound expressions, so that no expression holds one. -/
def TokenKind.isBoundary : TokenKind → Bool
  | .sign .assign => true
  | .sign .output => true
  | .sign .input => true
  | .indent => true
  | .dedent => true
  | .lineEnd => true
  | .sourceEnd => true
  | _ => false

/-- Whether a token closes a block or ends the source. -/
def Token.isClosing (t : Token) : Bool := t.kind == .dedent || t.kind == .sourceEnd

/-- A token inside an expression is no layout. -/
theorem TokenKind.isLayout_of_isBoundary {kind : TokenKind} (h : kind.isBoundary = false) :
    kind.isLayout = false := by
  cases kind <;> first | rfl | cases h

/-- A token that closes blocks or the source is layout. -/
theorem Token.isClosing_of_isLayout {t : Token} (h : t.kind.isLayout = false) :
    t.isClosing = false := by
  unfold isClosing
  cases hkind : t.kind <;> simp_all [TokenKind.isLayout]

/-- Tokens the last of which is a line's own. -/
def EndsOwn (ts : List Token) : Prop :=
  ∃ before t, ts = before ++ [t] ∧ t.kind.isLayout = false

namespace EndsOwn

theorem singleton {t : Token} (h : t.kind.isLayout = false) : EndsOwn [t] := ⟨[], t, rfl, h⟩

/-- Tokens end with a token of their own line if the last ones do. -/
theorem append (ts : List Token) {us : List Token} (h : EndsOwn us) : EndsOwn (ts ++ us) := by
  obtain ⟨before, t, rfl, ht⟩ := h
  exact ⟨ts ++ before, t, (List.append_assoc ..).symm, ht⟩

/-- Tokens without layout end with one of their own line. -/
theorem of_forall {ts : List Token} (hne : ts ≠ []) (h : ∀ t ∈ ts, t.kind.isLayout = false) :
    EndsOwn ts :=
  ⟨ts.dropLast, ts.getLast hne, (List.dropLast_concat_getLast hne).symm,
    h _ (List.getLast_mem hne)⟩

end EndsOwn

/-! ### Blocks -/

/-- How many blocks some tokens open. -/
def blocksOpened (ts : List Token) : Nat := ts.countP (·.kind == .indent)

/-- How many blocks some tokens close. -/
def blocksClosed (ts : List Token) : Nat := ts.countP (·.kind == .dedent)

/-- Blocks are counted part by part. -/
@[simp]
theorem blocksOpened_append (ts us : List Token) :
    blocksOpened (ts ++ us) = blocksOpened ts + blocksOpened us := List.countP_append

@[simp]
theorem blocksClosed_append (ts us : List Token) :
    blocksClosed (ts ++ us) = blocksClosed ts + blocksClosed us := List.countP_append

/-- Without an indent no block is opened. -/
theorem blocksOpened_eq_zero {ts : List Token} (h : ∀ t ∈ ts, t.kind ≠ .indent) :
    blocksOpened ts = 0 := by
  simpa [blocksOpened, List.countP_eq_zero] using h

/-- Without a dedent no block is closed. -/
theorem blocksClosed_eq_zero {ts : List Token} (h : ∀ t ∈ ts, t.kind ≠ .dedent) :
    blocksClosed ts = 0 := by
  simpa [blocksClosed, List.countP_eq_zero] using h

/-- Dedents alone close one block each. -/
theorem blocksClosed_eq_length {ts : List Token} (h : ∀ t ∈ ts, t.kind = .dedent) :
    blocksClosed ts = ts.length := by
  simpa [blocksClosed, List.countP_eq_length] using h

end DialogScript
