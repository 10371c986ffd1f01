import DialogScript.Program.Feed

/-!
# What a feed shows

The parser and the grammar are compared through the feed: `f.Shows ts g` says that a feed shows
the tokens `ts` and goes on as the feed `g`. It is stated for feeds with a fault behind their
tokens too: there the two tokens of look-ahead have to be known. The functions that take a token
succeed exactly if the feed shows one of the right kind.
-/

namespace DialogScript

/-- A computation that has a result has one after its first part. -/
theorem bind_eq_ok {ε α β : Type} {x : Except ε α} {f : α → Except ε β} {b : β} :
    (x >>= f) = .ok b ↔ ∃ a, x = .ok a ∧ f a = .ok b := by
  cases x <;> simp [bind, Except.bind]

theorem pure_eq_ok {ε α : Type} {a b : α} : (pure a : Except ε α) = .ok b ↔ a = b := by
  simp [pure, Except.pure]

namespace Feed

/-- A feed shows some tokens and goes on as another feed. If there is a fault behind the tokens,
the two tokens after the ones shown are known. -/
structure Shows (f : Feed) (ts : List Token) (g : Feed) : Prop where
  tokens : f.tokens = ts ++ g.tokens
  ending : g.ending = f.ending
  fault : g.fault = f.fault
  digits : g.digits = f.digits
  ahead : ts ≠ [] → f.fault.isSome → hasTwo g.tokens = true

/-- More tokens in front leave two tokens to look at. -/
theorem hasTwo_append {α : Type} (xs : List α) {ys : List α} (h : hasTwo ys = true) :
    hasTwo (xs ++ ys) = true := by
  match xs, ys, h with
  | [], _, h => exact h
  | [_], _ :: _ :: _, _ => rfl
  | _ :: _ :: _, _, _ => rfl

/-- A feed starts where two tokens are known, whatever comes after them. -/
theorem start_of_hasTwo {l : Listing Token SyntaxError} (h : hasTwo l.items = true)
    (digits : DigitLimit) : start l digits = .ok ⟨l.items, endAfter l.items, l.fault, digits⟩ := by
  unfold start
  split <;> rename_i hfault
  · rw [h, hfault]
    rfl
  · rw [hfault]

namespace Shows

variable {f g k : Feed} {t : Token} {ts us : List Token}

theorem refl (f : Feed) : f.Shows [] f := ⟨rfl, rfl, rfl, rfl, fun h => absurd rfl h⟩

/-- Tokens that are shown one after the other are shown together. -/
theorem trans (h : f.Shows ts g) (h' : g.Shows us k) : f.Shows (ts ++ us) k := by
  refine ⟨by rw [h.tokens, h'.tokens, List.append_assoc], h'.ending.trans h.ending,
    h'.fault.trans h.fault, h'.digits.trans h.digits, fun hne hfault => ?_⟩
  by_cases hus : us = []
  · subst hus
    have htokens : g.tokens = k.tokens := by simpa using h'.tokens
    rw [← htokens]
    exact h.ahead (by simpa using hne) hfault
  · exact h'.ahead hus (h.fault ▸ hfault)

/-- What a feed shows can be taken in two goes. -/
theorem split (h : f.Shows (ts ++ us) k) : ∃ g, f.Shows ts g ∧ g.Shows us k := by
  refine ⟨⟨us ++ k.tokens, f.ending, f.fault, f.digits⟩, ⟨?_, rfl, rfl, rfl, fun hts hfault => ?_⟩,
    ⟨rfl, h.ending, h.fault, h.digits, fun hus => h.ahead (by simp [hus])⟩⟩
  · rw [h.tokens, List.append_assoc]
  · exact hasTwo_append us (h.ahead (by simp [hts]) hfault)

/-- The first of the tokens that a feed shows, and the feed behind it. -/
theorem split_cons (h : f.Shows (t :: ts) k) : ∃ g, f.Shows [t] g ∧ g.Shows ts k := by
  rw [← List.singleton_append] at h
  exact h.split

theorem current (h : f.Shows (t :: ts) g) : f.current = t := by
  simp [Feed.current, h.tokens]

/-- The second token to look at is the first one of the feed behind the first. -/
theorem following (h : f.Shows [t] g) : f.following = g.current := by
  simp [Feed.following, Feed.current, h.tokens, h.ending]

theorem eq_of_nil (h : f.Shows [] g) : f = g := by
  obtain ⟨tokens, ending, fault, digits⟩ := f
  obtain ⟨tokens', ending', fault', digits'⟩ := g
  obtain ⟨htokens, hending, hfault, hdigits, -⟩ := h
  dsimp only at htokens hending hfault hdigits
  rw [htokens, hending, hfault, hdigits, List.nil_append]

theorem remaining_le (h : f.Shows ts g) : g.remaining ≤ f.remaining := by
  simp [remaining, h.tokens]

/-- A feed gets shorter with every token that it shows. -/
theorem remaining_lt (h : f.Shows ts g) (hts : ts ≠ []) : g.remaining < f.remaining := by
  have := List.length_pos_iff.mpr hts
  simp only [remaining, h.tokens, List.length_append]
  omega

/-- What holds of all tokens of a feed holds of those that are left. -/
theorem forall_mem {p : Token → Prop} (h : f.Shows ts g) (hp : ∀ t ∈ f.tokens, p t) :
    ∀ t ∈ g.tokens, p t :=
  fun t ht => hp t (by simp [h.tokens, ht])

/-- What holds of all tokens of a feed holds of those that it shows. -/
theorem forall_mem_shown {p : Token → Prop} (h : f.Shows ts g) (hp : ∀ t ∈ f.tokens, p t) :
    ∀ t ∈ ts, p t :=
  fun t ht => hp t (by simp [h.tokens, ht])

end Shows

variable {f : Feed} {p : TokenKind → Bool}

/-- A token that is taken was the next one. -/
theorem shows_of_take {t : Token} {g : f.Shorter} (h : f.take = .ok (t, g)) : f.Shows [t] g.1 := by
  obtain ⟨tokens, ending, fault, digits⟩ := f
  cases tokens with
  | nil => simp [take] at h
  | cons first rest =>
    cases fault with
    | none =>
      simp only [take, Except.ok.injEq, Prod.mk.injEq] at h
      obtain ⟨rfl, rfl⟩ := h
      exact ⟨rfl, rfl, rfl, rfl, by simp⟩
    | some e =>
      simp only [take] at h
      split at h
      · rename_i htwo
        simp only [Except.ok.injEq, Prod.mk.injEq] at h
        obtain ⟨rfl, rfl⟩ := h
        exact ⟨rfl, rfl, rfl, rfl, fun _ _ => htwo⟩
      · simp at h

private theorem take_of_shows {t : Token} {g : f.Shorter} (h : f.Shows [t] g.1) :
    f.take = .ok (t, g) := by
  obtain ⟨⟨tokens', ending', fault', digits'⟩, hg⟩ := g
  obtain ⟨tokens, ending, fault, digits⟩ := f
  obtain ⟨htokens, hending, hfault, hdigits, hahead⟩ := h
  dsimp only at htokens hending hfault hdigits hahead
  subst hending hfault hdigits htokens
  cases fault' with
  | none => simp [take]
  | some e => simp [take, hahead (by simp) rfl]

/-- Taking a token takes the one that the feed shows. -/
theorem take_eq_ok {t : Token} {g : f.Shorter} : f.take = .ok (t, g) ↔ f.Shows [t] g.1 :=
  ⟨shows_of_take, take_of_shows⟩

/-- The token that a feed shows can be taken. -/
theorem take_complete {g : Feed} {t : Token} (h : f.Shows [t] g) :
    f.take = .ok (t, ⟨g, h.remaining_lt (by simp)⟩) :=
  take_eq_ok.mpr h

/-- A token is left alone if its kind is not wanted. -/
theorem accept_eq_none : f.accept p = .ok none ↔ p f.current.kind = false := by
  unfold accept
  split <;> rename_i h
  · cases htake : f.take <;> simp [Except.map, h]
  · simpa using h

private theorem accept_eq_some {t : Token} {g : f.Shorter} :
    f.accept p = .ok (some (t, g)) ↔ p t.kind = true ∧ f.Shows [t] g.1 := by
  rw [← take_eq_ok]
  unfold accept
  split <;> rename_i h
  · cases htake : f.take with
    | error e => simp [Except.map]
    | ok r =>
      obtain ⟨t', g'⟩ := r
      have hcurrent := (take_eq_ok.mp htake).current
      rw [hcurrent] at h
      simp only [Except.map, Except.ok.injEq, Option.some.injEq, Prod.mk.injEq]
      refine ⟨fun heq => ⟨heq.1 ▸ h, heq⟩, fun heq => heq.2⟩
  · simp only [Except.ok.injEq, reduceCtorEq, false_iff, not_and]
    intro hp htake
    rw [(take_eq_ok.mp htake).current] at h
    exact h hp

/-- The token that a feed shows is accepted if its kind is wanted. -/
theorem accept_complete {g : Feed} {t : Token} (h : f.Shows [t] g) (hp : p t.kind = true) :
    f.accept p = .ok (some (t, ⟨g, h.remaining_lt (by simp)⟩)) :=
  accept_eq_some.mpr ⟨hp, h⟩

private theorem expect_eq_ok {kind : TokenKind} {what : String} {t : Token} {g : f.Shorter} :
    f.expect kind what = .ok (t, g) ↔ t.kind = kind ∧ f.Shows [t] g.1 := by
  rw [← take_eq_ok]
  unfold expect
  split <;> rename_i h
  · refine ⟨fun htake => ⟨?_, htake⟩, fun heq => heq.2⟩
    rw [(take_eq_ok.mp htake).current] at h
    exact h
  · simp only [reduceCtorEq, false_iff, not_and]
    intro hkind htake
    rw [(take_eq_ok.mp htake).current] at h
    exact h hkind

/-- The token that a feed shows is there if it is expected. -/
theorem expect_complete {g : Feed} {t : Token} (h : f.Shows [t] g) (what : String) :
    f.expect t.kind what = .ok (t, ⟨g, h.remaining_lt (by simp)⟩) :=
  expect_eq_ok.mpr ⟨rfl, h⟩

private theorem expectLineEnd_eq_ok {g : f.Shorter} :
    f.expectLineEnd = .ok g ↔ ∃ t, t.kind = .lineEnd ∧ f.Shows [t] g.1 := by
  simp only [expectLineEnd, bind_eq_ok, pure_eq_ok, Prod.exists]
  constructor
  · rintro ⟨t, g', hexpect, rfl⟩
    exact ⟨t, expect_eq_ok.mp hexpect⟩
  · rintro ⟨t, ht⟩
    exact ⟨t, g, expect_eq_ok.mpr ht, rfl⟩

/-- The end of a line is there if a feed shows it. -/
theorem expectLineEnd_complete {g : Feed} {t : Token} (h : f.Shows [t] g)
    (ht : t.kind = .lineEnd) : f.expectLineEnd = .ok ⟨g, h.remaining_lt (by simp)⟩ :=
  expectLineEnd_eq_ok.mpr ⟨t, ht, h⟩

end Feed

end DialogScript
