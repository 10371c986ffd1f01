import DialogScript.Proofs.Grammar
import DialogScript.Proofs.Parsing.Feed
import DialogScript.Proofs.TokenClasses

/-!
# Where the parser stops

On well-made tokens a part of the parser either reads what the grammar derives or stops with an
error, and the error tells where: a feed `f` snags on an error (`f.Snags e`) if, after some of its
tokens have been taken, the fault behind the tokens comes up, a token is out of place, or an
integer cannot be held. Both sides are stated together (`Verdict`), so that each part of the parser
is gone through once. What is known of its errors is read off its snags.

A token that is out of place is in the text of the script unless it closes a block or ends the
source. The snags keep what excludes that: the token before it is a line's own, or it is none of
the closing tokens itself.
-/

namespace DialogScript

/-- Whether a cause is that a header has no body. -/
def SyntaxCause.asksForBody : SyntaxCause → Bool
  | .missingBody _ => true
  | _ => false

/-- A part of the parser gives a result with a property, or an error with another property. -/
def Verdict {α : Type} (P : α → Prop) (Q : ParseError → Prop) : Except ParseError α → Prop
  | .ok a => P a
  | .error e => Q e

namespace Verdict

variable {α β : Type} {P P' : α → Prop} {R : β → Prop} {Q Q' : ParseError → Prop}

/-- A verdict on two parts of the parser, one after the other. -/
theorem bind {x : Except ParseError α} {k : α → Except ParseError β} (hx : Verdict P Q x)
    (hk : ∀ a, P a → Verdict R Q (k a)) : Verdict R Q (x >>= k) := by
  cases x with
  | ok a => exact hk a hx
  | error e => exact hx

theorem mono_result {x : Except ParseError α} (hx : Verdict P Q x) (hP : ∀ a, P a → P' a) :
    Verdict P' Q x := by
  cases x with
  | ok a => exact hP a hx
  | error e => exact hx

theorem mono_error {x : Except ParseError α} (hx : Verdict P Q x) (hQ : ∀ e, Q e → Q' e) :
    Verdict P Q' x := by
  cases x with
  | ok a => exact hx
  | error e => exact hQ e hx

end Verdict

/-- The place of a token with columns is known. -/
theorem Token.WellMade.place {t : Token} (h : t.WellMade) (Q : ParseError → Prop) :
    Verdict (· = t.extent) Q t.place := by
  rw [place_eq_ok h.columns]
  rfl

namespace Feed

/-- The tokens of a feed are well made, and past them it shows the end of the source. -/
structure WellMade (f : Feed) : Prop where
  tokens : ∀ t ∈ f.tokens, t.WellMade
  ending : f.ending.kind = .sourceEnd
  columns : f.ending.initial < f.ending.final

/-- What the parser stumbles over in front of a feed, after it has taken some tokens. -/
inductive Snag (before : List Token) (g : Feed) : ParseError → Prop
  /-- The fault behind the tokens. -/
  | fault {e : SyntaxError} (h : g.fault = some e) : Snag before g (.malformed e)
  /-- The current token is out of place. -/
  | current {cause : SyntaxCause} (hcause : cause.asksForBody = false)
      (hplace : EndsOwn before ∨ g.current.isClosing = false) : Snag before g (g.complaint cause)
  /-- The token after the current one is out of place. -/
  | next {cause : SyntaxCause} (hcause : cause.asksForBody = false)
      (hown : g.current.kind.isLayout = false) :
      Snag before g (g.complaintAbout g.following cause)
  /-- The word that was taken last means nothing here. -/
  | word {t : Token} {cause : SyntaxCause} (hcause : cause.asksForBody = false)
      (ht : t ∈ before) (hown : t.kind.isLayout = false) (hplace : EndsOwn before) :
      Snag before g (g.complaintAbout t cause)
  /-- An integer is out of range. -/
  | range {t : Token} (ht : t ∈ before) (hkind : t.kind = .integer) :
      Snag before g (.malformed ⟨.integerRange t.text, t.extent⟩)
  /-- An integer is too long to be read. -/
  | tooLong {t : Token} {most : Nat} (ht : t ∈ before) (hkind : t.kind = .integer)
      (hmost : g.digits.exceeded? t.text.length = some most) :
      Snag before g (.badInteger (.tooLong most t.text.length))

/-- The parser stumbles over something that a feed shows. -/
def Snags (f : Feed) (e : ParseError) : Prop := ∃ ts g, f.Shows ts g ∧ Snag ts g e

variable {f g k : Feed} {ts us : List Token} {t : Token} {e : ParseError}

namespace WellMade

/-- What is left of a feed is well made. -/
theorem shows (h : f.WellMade) (hshows : f.Shows ts g) : g.WellMade :=
  ⟨hshows.forall_mem h.tokens, hshows.ending ▸ h.ending, hshows.ending ▸ h.columns⟩

/-- The tokens that a feed shows are well made. -/
theorem shown (h : f.WellMade) (hshows : f.Shows ts g) : ∀ t ∈ ts, t.WellMade :=
  hshows.forall_mem_shown h.tokens

theorem token (h : f.WellMade) (hshows : f.Shows [t] g) : t.WellMade :=
  h.shown hshows t List.mem_cons_self

/-- The token to look at has columns. -/
theorem current_columns (h : f.WellMade) : f.current.initial < f.current.final := by
  unfold Feed.current
  cases htokens : f.tokens with
  | nil => exact h.columns
  | cons t rest => exact (h.tokens t (by simp [htokens])).columns

/-- The token after it has columns. -/
theorem following_columns (h : f.WellMade) : f.following.initial < f.following.final := by
  unfold Feed.following
  match htokens : f.tokens with
  | [] | [_] => exact h.columns
  | _ :: t :: rest => exact (h.tokens t (by simp [htokens])).columns

/-- Where the source does not end, the current token is the first one. -/
theorem tokens_eq (h : f.WellMade) (hkind : f.current.kind ≠ .sourceEnd) :
    ∃ rest, f.tokens = f.current :: rest := by
  cases htokens : f.tokens with
  | nil =>
    rw [Feed.current, htokens] at hkind
    exact absurd h.ending hkind
  | cons t rest => exact ⟨rest, by simp [Feed.current, htokens]⟩

end WellMade

/-! ### The start -/

/-- The feed in front of the first token of a listing. -/
def ofListing (l : Listing Token SyntaxError) (digits : DigitLimit) : Feed :=
  ⟨l.items, endAfter l.items, l.fault, digits⟩

/-- A feed of well-made tokens is well made. -/
theorem WellMade.ofListing {l : Listing Token SyntaxError} (h : ∀ t ∈ l.items, t.WellMade)
    (digits : DigitLimit) : (Feed.ofListing l digits).WellMade := by
  refine ⟨h, ?_, ?_⟩ <;> unfold Feed.ofListing endAfter <;> dsimp only
  · split <;> rfl
  · split
    · exact Int.lt_succ _
    · decide

/-- A feed starts in front of the first token, or with the fault of a listing that has hardly any
tokens. -/
theorem start_cases (l : Listing Token SyntaxError) (digits : DigitLimit) :
    (start l digits = .ok (ofListing l digits) ∧ (l.fault.isSome → hasTwo l.items = true)) ∨
      ∃ e, l.fault = some e ∧ start l digits = .error (.malformed e) := by
  unfold start ofListing
  cases hfault : l.fault with
  | none => exact .inl ⟨rfl, by simp⟩
  | some e =>
    by_cases htwo : hasTwo l.items = true
    · exact .inl ⟨if_pos htwo, fun _ => htwo⟩
    · exact .inr ⟨e, rfl, if_neg htwo⟩

/-! ### Lines -/

/-- A feed of well-made tokens that comes after some tokens of another one, the last of which is a
line's own. -/
structure OnLine (f : Feed) (ts : List Token) (g : Feed) : Prop where
  made : g.WellMade
  shows : f.Shows ts g
  own : EndsOwn ts

namespace OnLine

/-- A feed stays on its line while it shows tokens that end with one of the line. -/
theorem next (h : f.OnLine ts g) (hshows : g.Shows us k) (hown : EndsOwn us) :
    f.OnLine (ts ++ us) k :=
  ⟨h.made.shows hshows, h.shows.trans hshows, hown.append ts⟩

/-- Behind a token of a line's own, every token can be complained about. -/
theorem complaint (h : f.OnLine ts g) {cause : SyntaxCause} (hcause : cause.asksForBody = false) :
    f.Snags (g.complaint cause) :=
  ⟨ts, g, h.shows, .current hcause (.inl h.own)⟩

end OnLine

/-! ### Taking a token -/

namespace WellMade

/-- A token that is there is taken, unless the fault behind the tokens comes up. -/
theorem take (h : g.WellMade) (hshows : f.Shows ts g) (hkind : g.current.kind ≠ .sourceEnd) :
    Verdict (fun r => r.1 = g.current ∧ g.Shows [r.1] r.2.1) f.Snags g.take := by
  obtain ⟨rest, htokens⟩ := h.tokens_eq hkind
  cases htake : g.take with
  | ok r => exact ⟨(shows_of_take htake).current.symm, shows_of_take htake⟩
  | error e =>
    unfold Feed.take at htake
    split at htake
    · rename_i hnil
      rw [htokens] at hnil
      cases hnil
    · split at htake
      · rename_i fault hfault
        split at htake
        · cases htake
        · obtain rfl := Except.error.inj htake
          exact ⟨ts, g, hshows, .fault hfault⟩
      · cases htake

/-- Taking a token of a line's own. -/
theorem takeOwn (h : g.WellMade) (hshows : f.Shows ts g)
    (hkind : g.current.kind.isLayout = false) :
    Verdict (fun r => r.1.kind = g.current.kind ∧ g.Shows [r.1] r.2.1 ∧
      f.OnLine (ts ++ [r.1]) r.2.1) f.Snags g.take := by
  refine (h.take hshows fun hend => ?_).mono_result fun r ⟨hr, hshow⟩ => ?_
  · rw [hend] at hkind
    cases hkind
  · exact ⟨hr ▸ rfl, hshow, h.shows hshow, hshows.trans hshow,
      (EndsOwn.singleton (hr ▸ hkind)).append ts⟩

/-- Taking a token of a line's own, if it is of the kind that is accepted. -/
theorem acceptOwn (h : g.WellMade) (hshows : f.Shows ts g) {p : TokenKind → Bool}
    (hp : ∀ kind, p kind = true → kind.isLayout = false) :
    Verdict (fun r => ∀ t k, r = some (t, k) →
      p t.kind = true ∧ g.Shows [t] k.1 ∧ f.OnLine (ts ++ [t]) k.1) f.Snags (g.accept p) := by
  unfold Feed.accept
  split
  · rename_i hcurrent
    have htake := h.takeOwn hshows (hp _ hcurrent)
    cases hresult : g.take with
    | ok r =>
      rw [hresult] at htake
      obtain ⟨hkind, htaken⟩ := htake
      rintro t k ⟨⟩
      exact ⟨hkind ▸ hcurrent, htaken⟩
    | error e =>
      rw [hresult] at htake
      exact htake
  · rintro t k ⟨⟩

end WellMade

namespace OnLine

/-- On a line, the next token is of the kind that is expected. -/
theorem expect (h : f.OnLine ts g) {kind : TokenKind} (hkind : kind ≠ .sourceEnd)
    (what : String) :
    Verdict (fun r => r.1.kind = kind ∧ g.Shows [r.1] r.2.1) f.Snags (g.expect kind what) := by
  unfold Feed.expect
  split
  · rename_i hcurrent
    refine (h.made.take h.shows (hcurrent ▸ hkind)).mono_result fun r ⟨hr, hshow⟩ => ?_
    exact ⟨hr ▸ hcurrent, hshow⟩
  · exact h.complaint rfl

/-- The end of a line is there, or the feed snags. -/
theorem expectLineEnd (h : f.OnLine ts g) :
    Verdict (fun k => ∃ t, t.kind = .lineEnd ∧ g.Shows [t] k.1) f.Snags g.expectLineEnd :=
  (h.expect (by decide) _).bind fun r hr => ⟨r.1, hr⟩

end OnLine

end Feed

end DialogScript
