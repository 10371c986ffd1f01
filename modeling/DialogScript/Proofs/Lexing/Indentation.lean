import DialogScript.Token.Lexer

/-!
# The stack of indentations

Each line of code has a width, its indentation, and a depth, the number of blocks it stands in.
The lexer finds the depth of a line with a stack of the widths of the open blocks.
`Indented indents marks` says which stack the lines with the given marks leave behind, one line
after the other; `Indented.regular` says what the marks have in common whatever the lines are.
-/

namespace DialogScript

/-- The width and the depth of a line of code. -/
structure LineMark where
  width : Nat
  depth : Nat
  deriving DecidableEq

/-- Lines of one width with no narrower line between them are equally deep, and a line that is
wider or deeper than the line before it is one block deeper. -/
structure Regular (marks : List LineMark) : Prop where
  equal : ∀ {i j : Nat} {a b : LineMark}, i < j → marks[i]? = some a → marks[j]? = some b →
    a.width = b.width → (∀ k c, i < k → k < j → marks[k]? = some c → a.width ≤ c.width) →
    a.depth = b.depth
  deeper : ∀ {i : Nat} {a b : LineMark}, marks[i]? = some a → marks[i + 1]? = some b →
    a.width < b.width ∨ a.depth < b.depth → b.depth = a.depth + 1

/-- The stack of widths, its top first, that lines with the given marks leave behind. -/
inductive Indented : List Nat → List LineMark → Prop
  | start : Indented [0] []
  | wider {indents : List Nat} {marks : List LineMark} {level : Nat} (h : Indented indents marks)
      (hwider : indents.headD 0 < level) :
      Indented (level :: indents) (marks ++ [⟨level, indents.length⟩])
  | narrower {indents : List Nat} {marks : List LineMark} {level : Nat}
      (h : Indented indents marks) (hnarrower : level ≤ indents.headD 0)
      (hopen : (indents.dropWhile (level < ·)).headD 0 = level) :
      Indented (indents.dropWhile (level < ·))
        (marks ++ [⟨level, (indents.dropWhile (level < ·)).length - 1⟩])

namespace Indented

/-- What the stack knows about the lines: it is sorted, its top is the last line, and a line with
no narrower line after it still has its width on the stack, at its depth. -/
structure Tracks (indents : List Nat) (marks : List LineMark) : Prop where
  sorted : indents.Pairwise (· > ·)
  bottom : indents.getLast? = some 0
  top : ∀ {a : LineMark}, marks.getLast? = some a →
    indents.head? = some a.width ∧ a.depth + 1 = indents.length
  held : ∀ {i : Nat} {a : LineMark}, marks[i]? = some a →
    (∀ k b, i < k → marks[k]? = some b → a.width ≤ b.width) →
    indents.reverse[a.depth]? = some a.width
  regular : Regular marks

private theorem getElem?_reverse_length_pred {indents : List Nat} {width depth : Nat}
    (hhead : indents.head? = some width) (hdepth : depth + 1 = indents.length) :
    indents.reverse[depth]? = some width := by
  rw [List.getElem?_reverse (by omega), ← hdepth, Nat.add_sub_cancel, Nat.sub_self,
    ← List.head?_eq_getElem?, hhead]

/-- A line that keeps the part of the stack up to its own width, and is on top of it. -/
theorem Tracks.snoc {indents indents' : List Nat} {marks : List LineMark} {m : LineMark}
    (h : Tracks indents marks) (hsorted : indents'.Pairwise (· > ·))
    (hbottom : indents'.getLast? = some 0) (hhead : indents'.head? = some m.width)
    (hdepth : m.depth + 1 = indents'.length)
    (hkeep : ∀ (n w : Nat), indents.reverse[n]? = some w → w ≤ m.width →
      indents'.reverse[n]? = some w)
    (hdeeper : ∀ a, marks.getLast? = some a → a.width < m.width ∨ a.depth < m.depth →
      m.depth = a.depth + 1) :
    Tracks indents' (marks ++ [m]) := by
  have hlast : (marks ++ [m])[marks.length]? = some m := by simp
  -- A line is either an old one or the new one at the end.
  have hold : ∀ {i a}, (marks ++ [m])[i]? = some a →
      marks[i]? = some a ∧ i < marks.length ∨ i = marks.length ∧ a = m := by
    intro i a hi
    rcases Nat.lt_trichotomy i marks.length with hlt | heq | hgt
    · rw [List.getElem?_append_left hlt] at hi
      exact .inl ⟨hi, hlt⟩
    · subst heq
      exact .inr ⟨rfl, Option.some.inj (hi.symm.trans hlast)⟩
    · rw [List.getElem?_eq_none (by simp; omega)] at hi
      cases hi
  have hheld : ∀ {i : Nat} {a : LineMark}, (marks ++ [m])[i]? = some a →
      (∀ k b, i < k → (marks ++ [m])[k]? = some b → a.width ≤ b.width) →
      indents'.reverse[a.depth]? = some a.width := by
    intro i a hi hlater
    rcases hold hi with ⟨hi', hlt⟩ | ⟨rfl, rfl⟩
    · -- The new line is no narrower either, so what the stack held for the line stays.
      refine hkeep _ _ (h.held hi' fun k b hk hb => hlater k b hk ?_) (hlater _ _ hlt hlast)
      rw [List.getElem?_append_left (List.getElem?_eq_some_iff.mp hb).1]
      exact hb
    · exact getElem?_reverse_length_pred hhead hdepth
  refine ⟨hsorted, hbottom, ?_, hheld, ?_, ?_⟩
  · intro a ha
    obtain rfl : m = a := by simpa using ha
    exact ⟨hhead, hdepth⟩
  · intro i j a b hij hi hj hwidth hbetween
    rcases hold hj with ⟨hj', hlt⟩ | ⟨rfl, rfl⟩
    · have hi' : marks[i]? = some a := by
        rwa [List.getElem?_append_left (by omega)] at hi
      refine h.regular.equal hij hi' hj' hwidth fun k c hik hkj hc => hbetween k c hik hkj ?_
      rw [List.getElem?_append_left (by omega)]
      exact hc
    · -- Both lines are still on the stack, where no width stands twice.
      have ha := hheld hi fun k c hik hc => by
        rcases hold hc with ⟨-, hlt⟩ | ⟨-, rfl⟩
        · exact hbetween k c hik hlt hc
        · exact Nat.le_of_eq hwidth
      have hb := hheld hj fun k c hk hc => by
        rcases hold hc with ⟨-, hlt⟩ | ⟨heq, -⟩ <;> omega
      have hnodup : indents'.reverse.Nodup :=
        List.pairwise_reverse.mpr (hsorted.imp fun hgt => Nat.ne_of_lt hgt)
      refine (List.getElem?_inj (List.getElem?_eq_some_iff.mp ha).1 hnodup).mp ?_
      rw [ha, hb, hwidth]
  · intro i a b hi hj hwider
    rcases hold hj with ⟨hj', hlt⟩ | ⟨hlen, rfl⟩
    · exact h.regular.deeper (by rwa [List.getElem?_append_left (by omega)] at hi) hj' hwider
    · refine hdeeper a ?_ hwider
      rw [List.getElem?_append_left (by omega)] at hi
      rw [List.getLast?_eq_getElem?, ← hlen, Nat.add_sub_cancel]
      exact hi

private theorem head_ge {indents : List Nat} (hsorted : indents.Pairwise (· > ·)) {x : Nat}
    (hx : x ∈ indents) : x ≤ indents.headD 0 := by
  cases indents with
  | nil => cases hx
  | cons y ys =>
    rcases List.mem_cons.mp hx with rfl | hx
    · exact Nat.le_refl _
    · exact Nat.le_of_lt ((List.pairwise_cons.mp hsorted).1 x hx)

theorem getLast?_dropWhile {indents : List Nat} (hbottom : indents.getLast? = some 0)
    (level : Nat) : (indents.dropWhile (level < ·)).getLast? = some 0 := by
  have hparts := List.takeWhile_append_dropWhile (p := fun x => decide (level < x)) (l := indents)
  cases hleft : indents.dropWhile (level < ·) with
  | nil =>
    rw [hleft, List.append_nil] at hparts
    have hall := List.all_takeWhile (p := fun x => decide (level < x)) (l := indents)
    rw [hparts] at hall
    have hzero := List.all_eq_true.mp hall 0 (List.mem_of_getLast? hbottom)
    simp at hzero
  | cons x xs =>
    rw [← hparts, hleft, List.getLast?_append] at hbottom
    simpa [List.getLast?_cons] using hbottom

private theorem head?_of_getLast? {indents : List Nat} {level : Nat}
    (hbottom : indents.getLast? = some 0) (hopen : indents.headD 0 = level) :
    indents.head? = some level := by
  cases indents with
  | nil => cases hbottom
  | cons x xs => exact congrArg some hopen

/-- The stack knows about all lines. -/
theorem tracks {indents : List Nat} {marks : List LineMark} (h : Indented indents marks) :
    Tracks indents marks := by
  induction h with
  | start =>
    refine ⟨by simp, rfl, ?_, ?_, ?_, ?_⟩
    · intro a ha
      cases ha
    · intro i a ha
      cases ha
    · intro i j a b _ ha
      cases ha
    · intro i a b ha
      cases ha
  | @wider indents marks level h hwider ih =>
    -- A wider line goes on top of a stack that stays whole.
    refine ih.snoc ?_ ?_ rfl rfl ?_ ?_
    · refine List.pairwise_cons.mpr ⟨fun x hx => ?_, ih.sorted⟩
      exact Nat.lt_of_le_of_lt (head_ge ih.sorted hx) hwider
    · rw [List.getLast?_cons, ih.bottom]
      rfl
    · intro n w hw _
      rw [List.reverse_cons, List.getElem?_append_left (List.getElem?_eq_some_iff.mp hw).1]
      exact hw
    · intro a ha _
      exact (ih.top ha).2.symm
  | @narrower indents marks level h hnarrower hopen ih =>
    have hbottom := getLast?_dropWhile ih.bottom level
    have hparts :=
      List.takeWhile_append_dropWhile (p := fun x => decide (level < x)) (l := indents)
    have hhead := head?_of_getLast? hbottom hopen
    have hpos := List.length_pos_of_mem (List.mem_of_head? hhead)
    refine ih.snoc (ih.sorted.sublist (List.dropWhile_sublist _)) hbottom hhead (by simp; omega)
      ?_ ?_
    · -- A width that is at most the new one is none of the widths that were closed.
      intro n w hw hle
      rw [← hparts, List.reverse_append] at hw
      by_cases hn : n < (indents.dropWhile (level < ·)).reverse.length
      · rwa [List.getElem?_append_left hn] at hw
      · rw [List.getElem?_append_right (by omega)] at hw
        have hmem : w ∈ indents.takeWhile (level < ·) :=
          List.mem_reverse.mp (List.mem_of_getElem? hw)
        have hgt := List.all_eq_true.mp List.all_takeWhile w hmem
        simp only [decide_eq_true_eq] at hgt
        exact absurd hle (by dsimp only; omega)
    · intro a ha hwider
      obtain ⟨htop, hdepth⟩ := ih.top ha
      have hwidth : indents.headD 0 = a.width := by
        rw [List.headD_eq_head?_getD, htop]
        rfl
      have hlength := Cursor.length_dropWhile_le (level < ·) indents
      dsimp only at hwider
      omega

/-- Whatever the lines are, their marks are regular. -/
theorem regular {indents : List Nat} {marks : List LineMark} (h : Indented indents marks) :
    Regular marks := h.tracks.regular

end Indented

end DialogScript
