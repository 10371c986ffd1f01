import Mathlib.Data.List.Forall2
import DialogScript.Proofs.Lexing.Continuation

/-!
# Texts without comments

Nothing above the cursor sees a comment or the kind of a line break. A cursor reads a text like
the text that is left of it when its comments are taken out (`Text.bare`): `c.bare` is the cursor
in the same place of that text, and what reads from `c` does the same from `c.bare`. Two texts
that have the same lines up to their comments leave the same text (`bare_eq_of_annotated`).

Only a comment that ends the text makes a difference: it reads as a line break that the text
without comments does not have.
-/

namespace DialogScript

namespace Text

/-- What is left of a text when its comments are taken out; `inside` says whether the text starts
within a comment. -/
def bare (inside : Bool) : List Char → List Char
  | [] => []
  | '\n' :: rest => '\n' :: bare false rest
  | c :: rest => if inside || c == '#' then bare true rest else c :: bare false rest

/-- A line is another line, perhaps with a comment appended. -/
def Annotates (line line' : List Char) : Prop :=
  line' = line ∨ ∃ comment, line' = line ++ '#' :: comment

/-- The lines of a text are those of another text, some of them with a comment appended. The line
breaks can be of any kind. -/
def Annotated (text text' : String) : Prop :=
  List.Forall₂ Annotates (lines text.toList) (lines text'.toList)

theorem bare_of_ne {c : Char} (hbreak : c ≠ '\n') (hcomment : c ≠ '#') (rest : List Char) :
    bare false (c :: rest) = c :: bare false rest := by
  rw [bare]
  · simp [hcomment]
  · exact fun h => absurd h hbreak

theorem bare_true (cs : List Char) : bare true cs = bare false (cs.dropWhile (· != '\n')) := by
  induction cs with
  | nil => rfl
  | cons c rest ih =>
    by_cases hbreak : c = '\n'
    · subst hbreak
      rfl
    · rw [List.dropWhile_cons_of_pos (by simpa using hbreak), ← ih, bare]
      · simp
      · exact fun h => absurd h hbreak

/-- After a comment comes the line break that ends it, or the end of the text. -/
theorem bare_comment (rest : List Char) :
    rest.dropWhile (· != '\n') = [] ∧ bare false ('#' :: rest) = [] ∨
      ∃ more, rest.dropWhile (· != '\n') = '\n' :: more ∧
        bare false ('#' :: rest) = '\n' :: bare false more := by
  have hbare : bare false ('#' :: rest) = bare false (rest.dropWhile (· != '\n')) :=
    bare_true rest
  cases hdrop : rest.dropWhile (· != '\n') with
  | nil => exact .inl ⟨rfl, by rw [hbare, hdrop]; rfl⟩
  | cons x more =>
    obtain rfl : x = '\n' := by
      have := List.head?_dropWhile_not (· != '\n') rest
      simpa [hdrop] using this
    exact .inr ⟨more, rfl, by rw [hbare, hdrop]; rfl⟩

/-- Any other character that is left stands at the same place of the text with comments. -/
theorem exists_of_bare_eq_cons {c : Char} {cs more : List Char} (hbreak : c ≠ '\n')
    (h : bare false cs = c :: more) : ∃ rest, cs = c :: rest ∧ more = bare false rest := by
  cases cs with
  | nil => cases h
  | cons x rest =>
    by_cases hx : x = '\n'
    · subst hx
      exact absurd (List.cons.inj h).1.symm hbreak
    by_cases hcomment : x = '#'
    · subst hcomment
      rcases bare_comment rest with ⟨-, hnil⟩ | ⟨_, -, hline⟩
      · rw [hnil] at h
        cases h
      · rw [hline] at h
        exact absurd (List.cons.inj h).1.symm hbreak
    · rw [bare_of_ne hx hcomment] at h
      obtain ⟨rfl, rfl⟩ := List.cons.inj h
      exact ⟨rest, rfl, rfl⟩

theorem bare_append {cs : List Char} (h : ∀ c ∈ cs, c ≠ '\n' ∧ c ≠ '#') (rest : List Char) :
    bare false (cs ++ rest) = cs ++ bare false rest := by
  induction cs with
  | nil => rfl
  | cons c cs ih =>
    obtain ⟨⟨hbreak, hcomment⟩, hcs⟩ := List.forall_mem_cons.mp h
    rw [List.cons_append, bare_of_ne hbreak hcomment, ih hcs, List.cons_append]

/-- A run of characters that are neither line breaks nor `#` is the same without comments. -/
theorem takeWhile_bare {p : Char → Bool} (hbreak : p '\n' = false) (hcomment : p '#' = false)
    (cs : List Char) : (bare false cs).takeWhile p = cs.takeWhile p ∧
      (bare false cs).dropWhile p = bare false (cs.dropWhile p) := by
  have hstop : ∀ x rest, p x = false → bare false (x :: rest) = [] ∨
      ∃ y more, bare false (x :: rest) = y :: more ∧ p y = false := by
    intro x rest hx
    by_cases hx' : x = '#'
    · subst hx'
      exact (bare_comment rest).imp And.right fun ⟨more, _, h⟩ => ⟨'\n', _, h, hbreak⟩
    · by_cases hx'' : x = '\n'
      · subst hx''
        exact .inr ⟨'\n', _, rfl, hbreak⟩
      · exact .inr ⟨x, _, bare_of_ne hx'' hx' rest, hx⟩
  induction cs with
  | nil => exact ⟨rfl, rfl⟩
  | cons c rest ih =>
    by_cases hc : p c = true
    · have hne : c ≠ '\n' ∧ c ≠ '#' := by
        constructor <;> rintro rfl <;> simp_all
      rw [bare_of_ne hne.1 hne.2, List.takeWhile_cons_of_pos hc, List.takeWhile_cons_of_pos hc,
        List.dropWhile_cons_of_pos hc, List.dropWhile_cons_of_pos hc, ih.1]
      exact ⟨rfl, ih.2⟩
    · rw [List.takeWhile_cons_of_neg hc, List.dropWhile_cons_of_neg hc]
      rcases hstop c rest (by simpa using hc) with hnil | ⟨y, more, hy, hpy⟩
      · simp [hnil]
      · rw [hy, List.takeWhile_cons_of_neg (by simp [hpy]),
          List.dropWhile_cons_of_neg (by simp [hpy])]
        exact ⟨rfl, rfl⟩

/-! ### Lines without comments -/

theorem splitBreaks_of_ne {c : Char} (h : c ≠ '\n') {rest line : List Char}
    {more : List (List Char)} (hrest : splitBreaks rest = line :: more) :
    splitBreaks (c :: rest) = (c :: line) :: more := by
  have hline : '\n' ∉ [c] := by simpa using h.symm
  exact splitBreaks_append hline hrest

/-- Each line is left up to its comment. -/
theorem splitBreaks_bare (cs : List Char) :
    splitBreaks (bare false cs) = (splitBreaks cs).map (List.takeWhile (· != '#')) ∧
      splitBreaks (bare true cs)
        = [] :: (splitBreaks cs).tail.map (List.takeWhile (· != '#')) := by
  induction cs with
  | nil => exact ⟨rfl, rfl⟩
  | cons c rest ih =>
    obtain ⟨hfalse, htrue⟩ := ih
    obtain ⟨line, more, hrest⟩ := splitBreaks_eq_cons rest
    rw [hrest] at hfalse htrue
    by_cases hbreak : c = '\n'
    · subst hbreak
      simp [bare, splitBreaks, hfalse, hrest]
    · have hinside : bare true (c :: rest) = bare true rest := by
        rw [bare_true, bare_true, List.dropWhile_cons_of_pos (by simpa using hbreak)]
      rw [splitBreaks_of_ne hbreak hrest, hinside]
      refine ⟨?_, htrue⟩
      by_cases hcomment : c = '#'
      · subst hcomment
        exact htrue
      · rw [bare_of_ne hbreak hcomment, splitBreaks_of_ne hbreak hfalse]
        simp [hcomment]

theorem intercalate_splitBreaks (cs : List Char) : ['\n'].intercalate (splitBreaks cs) = cs := by
  induction cs with
  | nil => rfl
  | cons c rest ih =>
    obtain ⟨line, more, hrest⟩ := splitBreaks_eq_cons rest
    rw [hrest] at ih
    by_cases hbreak : c = '\n'
    · subst hbreak
      rw [splitBreaks, hrest, List.intercalate_cons_cons, ih]
      rfl
    · rw [splitBreaks_of_ne hbreak hrest]
      cases more with
      | nil => simpa using ih
      | cons next more => simpa using ih

/-- A text is its first line, and then it ends or goes on after a line break. -/
theorem exists_tail_of_splitBreaks {cs line : List Char} {more : List (List Char)}
    (h : splitBreaks cs = line :: more) :
    '\n' ∉ line ∧ ((cs = line ∧ more = []) ∨
      ∃ rest, cs = line ++ '\n' :: rest ∧ splitBreaks rest = more) := by
  induction cs generalizing line more with
  | nil =>
    obtain ⟨rfl, rfl⟩ := List.cons.inj h
    exact ⟨List.not_mem_nil, .inl ⟨rfl, rfl⟩⟩
  | cons c cs ih =>
    by_cases hc : c = '\n'
    · subst hc
      obtain ⟨rfl, rfl⟩ := List.cons.inj h
      exact ⟨List.not_mem_nil, .inr ⟨cs, rfl, rfl⟩⟩
    · obtain ⟨first, rest, hrest⟩ := splitBreaks_eq_cons cs
      rw [splitBreaks_of_ne hc hrest] at h
      obtain ⟨rfl, rfl⟩ := List.cons.inj h
      obtain ⟨hline, htail⟩ := ih hrest
      refine ⟨by simp [Ne.symm hc, hline], ?_⟩
      rcases htail with ⟨rfl, rfl⟩ | ⟨after, rfl, hafter⟩
      · exact .inl ⟨rfl, rfl⟩
      · exact .inr ⟨after, rfl, hafter⟩

private theorem Annotates.takeWhile_eq {line line' : List Char} (h : Annotates line line') :
    line'.takeWhile (· != '#') = line.takeWhile (· != '#') := by
  rcases h with rfl | ⟨comment, rfl⟩
  · rfl
  · rw [List.takeWhile_append, List.takeWhile_cons_of_neg (by simp), List.append_nil]
    split
    · rename_i hwhole
      exact ((List.takeWhile_prefix _).eq_of_length hwhole).symm
    · rfl

/-- Appended comments do not change what is left without comments. -/
theorem bare_eq_of_annotated {text text' : String} (h : Annotated text text') :
    bare false (normalizeBreaks text'.toList) = bare false (normalizeBreaks text.toList) := by
  have hlines : ∀ {ls ls' : List (List Char)}, List.Forall₂ Annotates ls ls' →
      ls'.map (List.takeWhile (· != '#')) = ls.map (List.takeWhile (· != '#')) := by
    intro ls ls' hall
    induction hall with
    | nil => rfl
    | cons hline _ ih => rw [List.map_cons, List.map_cons, hline.takeWhile_eq, ih]
  rw [← intercalate_splitBreaks (bare false (normalizeBreaks text'.toList)),
    ← intercalate_splitBreaks (bare false (normalizeBreaks text.toList)), (splitBreaks_bare _).1,
    (splitBreaks_bare _).1]
  exact congrArg _ (hlines h)

/-- A text whose line breaks are line feeds stays as it is. -/
theorem normalizeBreaks_eq_self {cs : List Char} (h : ∀ c ∈ cs, isBreak c = true → c = '\n') :
    normalizeBreaks cs = cs := by
  fun_induction normalizeBreaks cs with
  | case1 => rfl
  | case2 => exact absurd (h '\r' (by simp) (by decide)) (by decide)
  | case3 c rest _ ih =>
    obtain ⟨hc, hrest⟩ := List.forall_mem_cons.mp h
    rw [ih hrest]
    split
    · rw [hc ‹_›]
    · rfl

theorem eq_of_mem_normalizeBreaks {cs : List Char} :
    ∀ c ∈ normalizeBreaks cs, isBreak c = true → c = '\n' := by
  fun_induction normalizeBreaks cs with
  | case1 => exact List.forall_mem_nil _
  | case2 rest ih => exact List.forall_mem_cons.mpr ⟨fun _ => rfl, ih⟩
  | case3 c rest _ ih =>
    refine List.forall_mem_cons.mpr ⟨fun hc => ?_, ih⟩
    by_cases hbreak : isBreak c = true
    · rw [if_pos hbreak]
    · rw [if_neg hbreak] at hc
      exact absurd hc hbreak

end Text

open Text

namespace Cursor

variable {c d : Cursor}

/-- The cursor in the same place of a text without comments. -/
def bare (c : Cursor) : Cursor := { c with rest := Text.bare false c.rest }

theorem takeWhile_bare {p : Char → Bool} (hbreak : p '\n' = false) (hcomment : p '#' = false)
    (c : Cursor) : c.bare.takeWhile p = ((c.takeWhile p).1, (c.takeWhile p).2.bare) := by
  obtain ⟨htake, hdrop⟩ := Text.takeWhile_bare hbreak hcomment c.rest
  simp [takeWhile, bare, forward, htake, hdrop]

theorem skipBlanks_bare (c : Cursor) : c.bare.skipBlanks = c.skipBlanks.bare := by
  rw [skipBlanks, takeWhile_bare (by decide) (by decide)]
  rfl

/-- A character that is not next is not next without comments either. -/
theorem bare_rest_ne {ch : Char} (hbreak : ch ≠ '\n') (h : ∀ rest, c.rest ≠ ch :: rest)
    (rest : List Char) : c.bare.rest ≠ ch :: rest := by
  intro hbare
  obtain ⟨rest', hrest, -⟩ := exists_of_bare_eq_cons hbreak hbare
  exact h rest' hrest

/-- Within a line the next character is no comment. -/
theorem rest_bare {ch : Char} {rest : List Char} (hrest : c.rest = ch :: rest)
    (hend : c.atLineEnd = false) : c.bare.rest = ch :: Text.bare false rest := by
  rw [bare, hrest]
  simp only [atLineEnd, hrest, Bool.or_eq_false_iff, beq_eq_false_iff_ne] at hend
  exact bare_of_ne hend.1 hend.2 rest

theorem atLineEnd_bare (c : Cursor) : c.bare.atLineEnd = c.atLineEnd := by
  cases hend : c.atLineEnd with
  | false =>
    cases hrest : c.rest with
    | nil => simp [atLineEnd, hrest] at hend
    | cons ch rest => simpa [atLineEnd, rest_bare hrest hend, hrest] using hend
  | true =>
    unfold atLineEnd at hend
    split at hend
    · rename_i hrest
      simp [atLineEnd, bare, hrest, Text.bare]
    · rename_i ch rest hrest
      simp only [Bool.or_eq_true, beq_iff_eq] at hend
      rcases hend with rfl | rfl
      · simp [atLineEnd, bare, hrest, Text.bare]
      · rcases bare_comment rest with ⟨-, hbare⟩ | ⟨more, -, hbare⟩ <;>
          simp [atLineEnd, bare, hrest, hbare]

/-- A character is read alike without comments, if there is more than a last comment. -/
theorem read?_bare {ch : Char} (hread : c.read? = some (ch, d)) :
    c.bare.rest = [] ∧ d.rest = [] ∧ c.atLineEnd = true ∨ c.bare.read? = some (ch, d.bare) := by
  unfold Cursor.read? at hread
  split at hread
  · cases hread
  rename_i x rest hrest
  split at hread
  · rename_i hbreak
    subst hbreak
    obtain ⟨rfl, rfl⟩ := Prod.mk.inj (Option.some.inj hread)
    exact .inr (by simp [Cursor.read?, bare, hrest, Text.bare, nextLine])
  rename_i hbreak
  split at hread
  · rename_i hcomment
    subst hcomment
    obtain ⟨rfl, rfl⟩ := Prod.mk.inj (Option.some.inj hread)
    rcases bare_comment rest with ⟨hdrop, hbare⟩ | ⟨more, hdrop, hbare⟩
    · exact .inl ⟨by rw [bare, hrest, hbare], by simp [nextLine, hdrop], by simp [atLineEnd, hrest]⟩
    · exact .inr (by simp [Cursor.read?, bare, hrest, hbare, nextLine, hdrop])
  · rename_i hcomment
    obtain ⟨rfl, rfl⟩ := Prod.mk.inj (Option.some.inj hread)
    exact .inr (by simp [Cursor.read?, bare, hrest, bare_of_ne hbreak hcomment, hbreak, hcomment,
      forward])

theorem canRead_of_bare (h : c.bare.rest ≠ []) : c.canRead = true ∧ c.bare.canRead = true := by
  have hrest : c.rest ≠ [] := by
    intro hnil
    exact h (by rw [bare, hnil]; rfl)
  exact ⟨by simpa [canRead] using hrest, by simpa [canRead] using h⟩

theorem bare_of_nil (h : c.rest = []) : c.bare = c := by
  cases c
  subst h
  rfl

theorem rest_ne_nil_of_read? {result : Char × Cursor} (h : c.read? = some result) :
    c.rest ≠ [] := by
  intro hnil
  simp [Cursor.read?, hnil] at h

/-- Where nothing is left without comments, nothing is left or a last comment. -/
theorem read?_of_bare_eq_nil (h : c.bare.rest = []) :
    c.rest = [] ∨ ∃ comment next, c.rest = '#' :: comment ∧ c.read? = some ('\n', next) ∧
      next.rest = [] := by
  cases hrest : c.rest with
  | nil => exact .inl rfl
  | cons ch comment =>
    have hbare : Text.bare false (ch :: comment) = [] := hrest ▸ h
    by_cases hbreak : ch = '\n'
    · subst hbreak
      cases hbare
    by_cases hcomment : ch = '#'
    · subst hcomment
      rcases bare_comment comment with ⟨hdrop, -⟩ | ⟨_, -, hline⟩
      · exact .inr ⟨comment, c.nextLine [], rfl, by simp [Cursor.read?, hrest, hdrop], rfl⟩
      · rw [hline] at hbare
        cases hbare
    · rw [bare_of_ne hbreak hcomment] at hbare
      cases hbare

private theorem level_bare (h : c.bare.rest ≠ []) : c.bare.level = c.level := by
  obtain ⟨hcan, hbare⟩ := canRead_of_bare h
  rw [level, level, if_pos hcan, if_pos hbare]
  rfl

/-- At the end of the source there is no indentation. -/
theorem readIndent_of_nil {limit : Option Nat} (h : c.rest = []) :
    c.readIndent limit = (.ok 0, c) := by
  rw [readIndent]
  split
  · rfl
  · rename_i hread
    simp [Cursor.read?, h] at hread

theorem rest_ne_nil_of_readIndent {limit : Option Nat} {r : Except SyntaxError Nat}
    (h : c.readIndent limit = (r, d)) (hne : d.rest ≠ []) : c.rest ≠ [] := by
  intro hnil
  rw [readIndent_of_nil hnil] at h
  exact hne ((Prod.mk.inj h).2 ▸ hnil)

/-- Within a line the next character is the same without comments. -/
theorem read?_bare_of_peek {x ch : Char} (hread : c.read? = some (x, d))
    (hend : c.atLineEnd = false) (hpeek : c.peek = some ch) :
    c.bare.read? = some (x, d.bare) ∧ c.bare.peek = some ch := by
  obtain ⟨rest, hrest⟩ : ∃ rest, c.rest = ch :: rest := by
    simpa [peek, List.head?_eq_some_iff] using hpeek
  have hbare := rest_bare hrest hend
  rcases read?_bare hread with ⟨-, -, hend'⟩ | hread'
  · rw [hend] at hend'
    cases hend'
  · exact ⟨hread', by rw [peek, hbare]; rfl⟩

/-- Indentation is read alike without comments, or up to the end of the source. -/
theorem readIndent_bare {limit : Option Nat} {r : Except SyntaxError Nat}
    (h : c.readIndent limit = (r, d)) :
    d.bare.rest ≠ [] ∧ c.bare.readIndent limit = (r, d.bare) ∨
      d.bare.rest = [] ∧ (∃ level, r = .ok level) ∧ (limit = none → d.rest = []) ∧
        ∃ e, c.bare.readIndent limit = (.ok 0, e) ∧ e.rest = [] := by
  fun_induction readIndent limit c with
  | case1 c hnone =>
    obtain ⟨rfl, rfl⟩ := Prod.mk.inj h
    have hnil := rest_eq_nil_of_read? hnone
    rw [bare_of_nil hnil]
    exact .inr ⟨hnil, ⟨0, rfl⟩, fun _ => hnil, c, readIndent_of_nil hnil, hnil⟩
  | case2 c _ _ hread _ hlimit =>
    obtain ⟨rfl, rfl⟩ := Prod.mk.inj h
    rcases read?_bare hread with ⟨hnil, -⟩ | hbare
    · refine .inr ⟨hnil, ⟨_, rfl⟩, ?_, _, readIndent_of_nil hnil, hnil⟩
      rintro rfl
      cases hlimit
    · have hne := rest_ne_nil_of_read? hbare
      rw [readIndent_of_read? hbare, level_bare hne]
      exact .inl ⟨hne, if_pos hlimit⟩
  | case3 c _ next hread _ hlimit hend ih =>
    rcases read?_bare hread with ⟨hnil, hnext, -⟩ | hbare
    · -- A last comment: the text without comments ends before it.
      rw [readIndent_of_nil hnext] at h
      obtain ⟨rfl, rfl⟩ := Prod.mk.inj h
      exact .inr ⟨by rw [bare_of_nil hnext]; exact hnext, ⟨0, rfl⟩, fun _ => hnext, _,
        readIndent_of_nil hnil, hnil⟩
    · have hskip : c.bare.readIndent limit = next.bare.readIndent limit := by
        rw [readIndent_of_read? hbare, atLineEnd_bare]
        exact (if_neg hlimit).trans (if_pos hend)
      rw [hskip]
      exact ih h
  | case4 c _ _ hread _ _ hend hpeek =>
    have hnil : c.rest = [] := by simpa [peek] using hpeek
    simp [Cursor.read?, hnil] at hread
  | case5 c _ next hread _ hlimit hend ch hpeek hblank hstyle ih =>
    obtain ⟨hbare, hpeek'⟩ := read?_bare_of_peek hread (by simpa using hend) hpeek
    have hskip : c.bare.readIndent limit = (next.withStyle ch).bare.readIndent limit := by
      rw [readIndent_of_read? hbare, atLineEnd_bare, hpeek', if_neg (by exact hlimit), if_neg hend]
      simp only [hblank, if_true, show c.bare.style = none from hstyle]
      rfl
    rw [hskip]
    exact ih h
  | case6 c _ next hread _ hlimit hend ch hstyle hpeek hblank ih =>
    obtain ⟨hbare, hpeek'⟩ := read?_bare_of_peek hread (by simpa using hend) hpeek
    have hskip : c.bare.readIndent limit = next.bare.readIndent limit := by
      rw [readIndent_of_read? hbare, atLineEnd_bare, hpeek', if_neg (by exact hlimit), if_neg hend]
      simp [hblank, show c.bare.style = some ch from hstyle]
    rw [hskip]
    exact ih h
  | case7 c _ next hread _ hlimit hend ch hpeek hblank style hstyle hne =>
    obtain ⟨rfl, rfl⟩ := Prod.mk.inj h
    obtain ⟨hbare, hpeek'⟩ := read?_bare_of_peek hread (by simpa using hend) hpeek
    refine .inl ⟨rest_ne_nil_of_read? hbare, ?_⟩
    rw [readIndent_of_read? hbare, atLineEnd_bare, hpeek', if_neg (by exact hlimit), if_neg hend]
    simp only [hblank, if_true, show c.bare.style = some style from hstyle, if_neg hne]
    rfl
  | case8 c _ next hread _ hlimit hend ch hpeek hblank =>
    obtain ⟨rfl, rfl⟩ := Prod.mk.inj h
    obtain ⟨hbare, hpeek'⟩ := read?_bare_of_peek hread (by simpa using hend) hpeek
    have hne := rest_ne_nil_of_read? hbare
    refine .inl ⟨hne, ?_⟩
    rw [readIndent_of_read? hbare, atLineEnd_bare, hpeek', if_neg (by exact hlimit), if_neg hend,
      level_bare hne]
    simp [hblank]

end Cursor

end DialogScript
