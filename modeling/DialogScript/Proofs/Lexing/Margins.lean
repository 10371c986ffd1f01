import DialogScript.Proofs.Lexing.Comments
import DialogScript.Proofs.Lexing.Spans

/-!
# What reading indentation reads

Reading indentation does three things at once: it passes lines without text, it measures the margin
of the first line with text, and it checks that all margins are written with one character. Said
line by line: the lines that are idle within the limit are passed, reading stops on the first
line that is not, after its margin or at the limit, and the first blank on the way that differs
from the style is an error at its place (`Cursor.indent_reads_margins`).

The proof goes line by line. The blanks of a line are either all of the style, and then reading
comes to the end of them (`readIndent_margin_uniform`), or one of them is not, and reading stops
there (`readIndent_margin_mixed`).
-/

namespace DialogScript

open Text

namespace Text

/-- The blanks that a line begins with, as far as a limit allows. -/
def marginWithin (limit : Option Nat) (line : List Char) : List Char :=
  match limit with
  | none => line.takeWhile Cursor.isIndentChar
  | some n => (line.takeWhile Cursor.isIndentChar).take n

/-- The columns up to the limit show that a line has no text: it ends there, or a comment starts
there. -/
def isIdle (limit : Option Nat) (line : List Char) : Bool :=
  (line.dropWhile Cursor.isIndentChar).head?.all (· == '#')
    && limit.all ((line.takeWhile Cursor.isIndentChar).length < ·)

/-- A blank with its place. -/
structure Blank where
  char : Char
  line : Nat
  column : Nat
  deriving DecidableEq

/-- The blanks at the start of a line, with their places. -/
def blanksAt (number : Nat) (cs : List Char) : List Blank :=
  cs.zipIdx.map fun b => ⟨b.1, number, b.2 + 1⟩

/-- The blanks up to the limit of the idle lines from a number on, and of the line after them. -/
def blanksFrom (limit : Option Nat) : Nat → List (List Char) → List Blank
  | _, [] => []
  | number, line :: more =>
    blanksAt number (marginWithin limit line)
      ++ if isIdle limit line then blanksFrom limit (number + 1) more else []

/-- The indentation style once some blanks are read: what it was, or else the first of them. -/
def styleAfter (style : Option Char) (blanks : List Blank) : Option Char :=
  style.or (blanks.head?.map (·.char))

private theorem marginWithin_begins_line (limit : Option Nat) (line : List Char) :
    marginWithin limit line <+: line := by
  unfold marginWithin
  split
  · exact List.takeWhile_prefix _
  · exact (List.take_prefix _ _).trans (List.takeWhile_prefix _)

private theorem isIndentChar_of_mem_marginWithin {limit : Option Nat} {line : List Char} {ch : Char}
    (h : ch ∈ marginWithin limit line) : Cursor.isIndentChar ch = true := by
  have hmem : ch ∈ line.takeWhile Cursor.isIndentChar := by
    unfold marginWithin at h
    split at h
    · exact h
    · exact List.mem_of_mem_take h
  exact List.all_eq_true.mp List.all_takeWhile _ hmem

private theorem length_marginWithin_le {limit : Option Nat} (line : List Char) :
    ∀ n ∈ limit, (marginWithin limit line).length ≤ n := by
  rintro n hn
  obtain rfl : limit = some n := hn
  exact List.length_take_le _ _

private theorem marginWithin_eq_takeWhile {limit : Option Nat} {line : List Char}
    (h : ∀ n ∈ limit, (line.takeWhile Cursor.isIndentChar).length ≤ n) :
    marginWithin limit line = line.takeWhile Cursor.isIndentChar := by
  unfold marginWithin
  split
  · rfl
  · rename_i n
    exact List.take_of_length_le (h n rfl)

private theorem drop_length_takeWhile (p : Char → Bool) (cs : List Char) :
    cs.drop (cs.takeWhile p).length = cs.dropWhile p := by
  have hpieces : (cs.takeWhile p ++ cs.dropWhile p).drop (cs.takeWhile p).length = _ :=
    List.drop_left
  rwa [List.takeWhile_append_dropWhile] at hpieces

/-- The margin of an idle line is within the limit, and then the line ends. -/
theorem drop_of_isIdle {limit : Option Nat} {line : List Char} (h : isIdle limit line = true) :
    (line.drop (marginWithin limit line).length = [] ∨
      ∃ comment, line.drop (marginWithin limit line).length = '#' :: comment) ∧
      ∀ n ∈ limit, (marginWithin limit line).length < n := by
  simp only [isIdle, Bool.and_eq_true, Option.all_eq_true, decide_eq_true_eq, beq_iff_eq] at h
  obtain ⟨hend, hlimit⟩ := h
  rw [marginWithin_eq_takeWhile fun n hn => Nat.le_of_lt (hlimit n hn), drop_length_takeWhile]
  refine ⟨?_, hlimit⟩
  cases hrest : line.dropWhile Cursor.isIndentChar with
  | nil => exact .inl rfl
  | cons ch rest =>
    rw [hrest] at hend
    obtain rfl := hend ch rfl
    exact .inr ⟨rest, rfl⟩

/-- The margin of a line that is not idle reaches the limit, or text comes after it. -/
theorem drop_of_not_isIdle {limit : Option Nat} {line : List Char}
    (h : isIdle limit line = false) :
    (∃ n ∈ limit, (marginWithin limit line).length = n) ∨
      ∃ ch rest, line.drop (marginWithin limit line).length = ch :: rest ∧
        Cursor.isIndentChar ch = false ∧ ch ≠ '#' := by
  by_cases hlimit : ∀ n ∈ limit, (line.takeWhile Cursor.isIndentChar).length < n
  · rw [marginWithin_eq_takeWhile fun n hn => Nat.le_of_lt (hlimit n hn), drop_length_takeWhile]
    have hall : limit.all ((line.takeWhile Cursor.isIndentChar).length < ·) = true := by
      simpa [Option.all_eq_true] using hlimit
    rw [isIdle, hall, Bool.and_true] at h
    cases hrest : line.dropWhile Cursor.isIndentChar with
    | nil => simp [hrest] at h
    | cons ch rest =>
      refine .inr ⟨ch, rest, rfl, ?_, by simpa [hrest] using h⟩
      have := List.head?_dropWhile_not Cursor.isIndentChar line
      simpa [hrest] using this
  · obtain ⟨n, hn, hle⟩ : ∃ n ∈ limit, n ≤ (line.takeWhile Cursor.isIndentChar).length := by
      simpa using hlimit
    obtain rfl : limit = some n := hn
    exact .inl ⟨n, rfl, List.length_take_of_le hle⟩

private theorem exists_not_isIdle {limit : Option Nat} {ls : List (List Char)}
    (h : ¬ls.all (isIdle limit) = true) : ∃ idle line more, ls = idle ++ line :: more ∧
      idle.all (isIdle limit) = true ∧ isIdle limit line = false := by
  induction ls with
  | nil => exact absurd rfl h
  | cons first ls ih =>
    by_cases hfirst : isIdle limit first = true
    · obtain ⟨idle, line, more, rfl, hidle, hline⟩ := ih fun hls => h (by simp [hfirst, hls])
      exact ⟨first :: idle, line, more, rfl, by simp [hfirst, hidle], hline⟩
    · exact ⟨[], first, ls, rfl, rfl, by simpa using hfirst⟩

/-! ### Blanks and their style -/

variable {style : Option Char} {number : Nat} {xs ys : List Blank} {cs : List Char}

private theorem map_char_blanksAt (number : Nat) (cs : List Char) :
    (blanksAt number cs).map (·.char) = cs := by
  simp [blanksAt, Function.comp_def]

private theorem styleAfter_append (style : Option Char) (xs ys : List Blank) :
    styleAfter style (xs ++ ys) = styleAfter (styleAfter style xs) ys := by
  unfold styleAfter
  rw [Option.or_assoc]
  cases xs <;> rfl

/-- The first blank decides. -/
theorem styleAfter_append_of_ne_nil (h : xs ≠ []) :
    styleAfter style (xs ++ ys) = styleAfter style xs := by
  cases xs with
  | nil => exact absurd rfl h
  | cons b xs => rfl

/-- All of some blanks are of one style. -/
def Uniform (style : Option Char) (blanks : List Blank) : Prop :=
  ∀ b ∈ blanks, styleAfter style blanks = some b.char

instance (style : Option Char) (blanks : List Blank) : Decidable (Uniform style blanks) :=
  inferInstanceAs (Decidable (∀ b ∈ blanks, _))

theorem Uniform.left (h : Uniform style (xs ++ ys)) : Uniform style xs := by
  intro b hb
  have hstyle : styleAfter style (xs ++ ys) = _ :=
    styleAfter_append_of_ne_nil (List.ne_nil_of_mem hb)
  rw [← hstyle]
  exact h b (List.mem_append_left _ hb)

theorem Uniform.right (h : Uniform style (xs ++ ys)) : Uniform (styleAfter style xs) ys := by
  intro b hb
  rw [← styleAfter_append]
  exact h b (List.mem_append_right _ hb)

/-- A blank is the first of some that is not of their style. -/
def FirstMixed (style : Option Char) (blanks : List Blank) (s : Char) (b : Blank) : Prop :=
  styleAfter style blanks = some s ∧ blanks.find? (·.char != s) = some b

private theorem exists_firstMixed (h : ¬Uniform style xs) : ∃ s b, FirstMixed style xs s b := by
  obtain ⟨a, ha, hne⟩ : ∃ a ∈ xs, styleAfter style xs ≠ some a.char := by
    simpa [Uniform] using h
  cases hstyle : styleAfter style xs with
  | none =>
    cases xs with
    | nil => cases ha
    | cons b xs => cases style <;> cases hstyle
  | some s =>
    have hsome : (xs.find? (·.char != s)).isSome = true := by
      refine List.find?_isSome.mpr ⟨a, ha, ?_⟩
      have hneq : a.char ≠ s := fun heq => hne (heq ▸ hstyle)
      simpa using hneq
    obtain ⟨b, hb⟩ := Option.isSome_iff_exists.mp hsome
    exact ⟨s, b, hstyle, hb⟩

/-- If the first blanks are mixed, what follows does not matter. -/
theorem FirstMixed.left {s : Char} {b : Blank} (h : FirstMixed style (xs ++ ys) s b)
    (hxs : ¬Uniform style xs) : FirstMixed style xs s b := by
  obtain ⟨s', b', hs', hb'⟩ := exists_firstMixed hxs
  have hne : xs ≠ [] := by
    rintro rfl
    cases hb'
  have hstyle := h.1
  rw [styleAfter_append_of_ne_nil hne, hs'] at hstyle
  obtain rfl := Option.some.inj hstyle
  have hfind := h.2
  rw [List.find?_append, hb'] at hfind
  exact ⟨hs', hb'.trans hfind⟩

/-- Past blanks of one style the first mixed blank is still to come. -/
theorem FirstMixed.right {s : Char} {b : Blank} (h : FirstMixed style (xs ++ ys) s b)
    (hxs : Uniform style xs) : FirstMixed (styleAfter style xs) ys s b := by
  refine ⟨styleAfter_append style xs ys ▸ h.1, ?_⟩
  have hnone : xs.find? (·.char != s) = none := by
    refine List.find?_eq_none.mpr fun a ha => ?_
    have hstyle := h.1
    rw [styleAfter_append_of_ne_nil (List.ne_nil_of_mem ha), hxs a ha] at hstyle
    simpa using Option.some.inj hstyle
  have hfind := h.2
  rwa [List.find?_append, hnone, Option.none_or] at hfind

/-- The blanks of one style are copies of one character. -/
theorem Uniform.eq_replicate (h : Uniform style (blanksAt number cs)) (hcs : cs ≠ []) :
    ∃ ch, cs = List.replicate cs.length ch ∧ (style = none ∨ style = some ch) ∧
      styleAfter style (blanksAt number cs) = some ch := by
  obtain ⟨ch, rest, rfl⟩ := List.exists_cons_of_ne_nil hcs
  have hall : ∀ x ∈ ch :: rest, styleAfter style (blanksAt number (ch :: rest)) = some x := by
    intro x hx
    rw [← map_char_blanksAt number (ch :: rest)] at hx
    obtain ⟨b, hb, rfl⟩ := List.mem_map.mp hx
    exact h b hb
  have hch := hall ch List.mem_cons_self
  refine ⟨ch, List.eq_replicate_of_mem fun x hx => ?_, ?_, hch⟩
  · exact Option.some.inj ((hall x hx).symm.trans hch)
  · cases style with
    | none => exact .inl rfl
    | some x => exact .inr hch

/-- The first blank of another style. -/
theorem FirstMixed.exists_eq_replicate {s : Char} {b : Blank}
    (h : FirstMixed style (blanksAt number cs) s b) :
    b.line = number ∧ b.char ≠ s ∧ b.char ∈ cs ∧ ∃ k rest, b.column = k + 1 ∧
      cs = List.replicate k s ++ b.char :: rest ∧ (style = some s ∨ style = none ∧ 0 < k) := by
  obtain ⟨hstyle, hfind⟩ := h
  obtain ⟨hne, before, after, hsplit, hbefore⟩ := List.find?_eq_some_iff_append.mp hfind
  have hne : b.char ≠ s := by simpa using hne
  have hget : (blanksAt number cs)[before.length]? = some b := by
    rw [hsplit, List.getElem?_append_right (Nat.le_refl _), Nat.sub_self]
    rfl
  have hchars := congrArg (List.map (·.char)) hsplit
  rw [map_char_blanksAt, List.map_append, List.map_cons] at hchars
  have hcopies : before.map (·.char) = List.replicate before.length s := by
    refine List.eq_replicate_iff.mpr ⟨List.length_map _, fun x hx => ?_⟩
    obtain ⟨a, ha, rfl⟩ := List.mem_map.mp hx
    simpa using hbefore a ha
  simp only [blanksAt, List.getElem?_map, List.getElem?_zipIdx, Option.map_eq_some_iff] at hget
  obtain ⟨place, ⟨ch, -, rfl⟩, rfl⟩ := hget
  refine ⟨rfl, hne, ?_, before.length, after.map (·.char), ?_, ?_, ?_⟩
  · rw [hchars]
    simp
  · simp
  · rw [hchars, hcopies]
  · cases style with
    | some x => exact .inl hstyle
    | none =>
      refine .inr ⟨rfl, Nat.pos_of_ne_zero fun hzero => ?_⟩
      -- Without a style the first blank fixes it, so it cannot be of another one.
      obtain rfl := List.length_eq_zero_iff.mp hzero
      rw [hsplit] at hstyle
      exact hne (Option.some.inj hstyle)

end Text

namespace Cursor

variable {c d : Cursor} {limit : Option Nat} {cs tail : List Char}

/-- The cursor past the blanks at the start of its line. -/
def pastMargin (cs tail : List Char) (c : Cursor) : Cursor :=
  ⟨tail, c.line, cs.length + 1, styleAfter c.style (blanksAt c.line cs)⟩

/-- Blanks of one style are read up to their end. -/
theorem readIndent_margin_uniform (hcolumn : c.column = 1) (hrest : c.rest = cs ++ tail)
    (hblank : ∀ ch ∈ cs, isIndentChar ch = true) (hlimit : ∀ n ∈ limit, cs.length ≤ n)
    (huniform : Uniform c.style (blanksAt c.line cs)) :
    c.readIndent limit = (c.pastMargin cs tail).readIndent limit := by
  by_cases hcs : cs = []
  · subst hcs
    have hsame : c.pastMargin [] tail = c := by
      rw [List.nil_append] at hrest
      simp only [pastMargin, ← hrest, List.length_nil, Nat.zero_add, ← hcolumn, blanksAt,
        styleAfter, List.zipIdx_nil, List.map_nil, List.head?_nil, Option.map_none, Option.or_none]
    rw [hsame]
  · obtain ⟨ch, hcopies, hstyle, hafter⟩ := huniform.eq_replicate hcs
    have hwidth : cs.length ≠ 0 := by simpa using hcs
    have hpast : c.pastBlanks ch cs.length tail = c.pastMargin cs tail := by
      simp only [pastBlanks, pastMargin, forward, hafter, if_neg hwidth, hcolumn, Nat.add_comm]
    rw [← hpast]
    refine readIndent_blanks (hblank ch ?_) (hcopies ▸ hrest) (fun _ => hstyle) fun n hn => ?_
    · rw [hcopies]
      exact List.mem_replicate.mpr ⟨hwidth, rfl⟩
    · have := hlimit n hn
      omega

/-- At a blank of another style reading stops. -/
theorem readIndent_margin_mixed {s : Char} {b : Blank} (hcolumn : c.column = 1)
    (hrest : c.rest = cs ++ tail) (hblank : ∀ ch ∈ cs, isIndentChar ch = true)
    (hlimit : ∀ n ∈ limit, cs.length ≤ n) (hmixed : FirstMixed c.style (blanksAt c.line cs) s b) :
    ∃ d, c.readIndent limit
        = (.error ⟨.mixedIndentation s b.char, Span.point b.line b.column⟩, d) ∧
      d.line = b.line ∧ d.column = b.column ∧ d.peek = some b.char := by
  obtain ⟨hline, hne, hmem, k, rest, hk, hcs, hbefore⟩ := hmixed.exists_eq_replicate
  have hshort : ∀ n ∈ limit, k < n := by
    intro n hn
    have := hlimit n hn
    rw [hcs, List.length_append, List.length_replicate, List.length_cons] at this
    omega
  -- The copies of the style in front of the blank are read.
  have hcopies : c.readIndent limit
      = (c.pastBlanks s k (b.char :: rest ++ tail)).readIndent limit := by
    by_cases hzero : k = 0
    · rw [hzero, List.replicate_zero, List.nil_append] at hcs
      rw [hzero, pastBlanks, ← hcs, ← hrest]
      rfl
    · refine readIndent_blanks (hblank s ?_) (by rw [hrest, hcs, List.append_assoc]) (fun _ => ?_)
        fun n hn => ?_
      · rw [hcs]
        exact List.mem_append_left _ (List.mem_replicate.mpr ⟨hzero, rfl⟩)
      · exact hbefore.elim .inr fun h => .inl h.1
      · have := hshort n hn
        omega
  have hfixed : (c.pastBlanks s k (b.char :: rest ++ tail)).style = some s := by
    rcases hbefore with hbefore | ⟨-, hpos⟩
    · simp only [pastBlanks, hbefore, ite_self]
    · simp only [pastBlanks, if_neg (Nat.ne_of_gt hpos)]
  generalize hd : c.pastBlanks s k (b.char :: rest ++ tail) = d at hcopies hfixed
  have hdrest : d.rest = b.char :: (rest ++ tail) := by rw [← hd]; rfl
  have hdline : d.line = b.line := by rw [← hd, hline]; rfl
  have hdcolumn : d.column = b.column := by
    rw [← hd, hk, Nat.add_comm k, ← hcolumn]
    rfl
  have hblankb := hblank b.char hmem
  have hink : b.char ≠ '\n' ∧ b.char ≠ '#' := by
    constructor <;> intro heq <;> rw [heq] at hblankb <;> exact absurd hblankb (by decide)
  have hpeek : d.peek = some b.char := by rw [peek, hdrest]; rfl
  have hread : d.read? = some (b.char, d.forward 1 (rest ++ tail)) := by
    simp [Cursor.read?, hdrest, hink]
  have hend : d.atLineEnd = false := by simp [atLineEnd, hdrest, hink]
  have hbeforeLimit : limit.any (· < d.column) = false := by
    cases limit with
    | none => rfl
    | some n =>
      have := hshort n rfl
      simp only [Option.any_some, decide_eq_false_iff_not]
      omega
  refine ⟨d, ?_, hdline, hdcolumn, hpeek⟩
  rw [hcopies, readIndent_of_read? hread, hbeforeLimit, hend, hpeek, hfixed]
  simp [hblankb, hne, point, hdline, hdcolumn]

/-- Where a line ends within the limit, reading goes on in the next one. -/
theorem readIndent_lineEnd {x : Char} (hlimit : ∀ n ∈ limit, c.column ≤ n)
    (hend : c.atLineEnd = true) (hread : c.read? = some (x, d)) :
    c.readIndent limit = d.readIndent limit := by
  have hbefore : limit.any (· < c.column) = false := by
    cases limit with
    | none => rfl
    | some n => simpa using hlimit n rfl
  rw [readIndent_of_read? hread, hbefore, hend]
  rfl

/-- Past the margin of an idle line comes the next line, or the source ends. -/
theorem readIndent_idle {line : List Char} {more : List (List Char)} (hcolumn : c.column = 1)
    (hsplit : splitBreaks c.rest = line :: more) (hidle : isIdle limit line = true)
    (huniform : Uniform c.style (blanksAt c.line (marginWithin limit line))) :
    (more = [] ∧ ∃ d : Cursor, c.readIndent limit = (.ok 0, d) ∧ d.rest = []) ∨
      ∃ d : Cursor, c.readIndent limit = d.readIndent limit ∧ splitBreaks d.rest = more ∧
        d.line = c.line + 1 ∧ d.column = 1 ∧
        d.style = styleAfter c.style (blanksAt c.line (marginWithin limit line)) := by
  obtain ⟨hline, htail⟩ := exists_tail_of_splitBreaks hsplit
  obtain ⟨hends, hshort⟩ := drop_of_isIdle hidle
  have hpieces := List.prefix_iff_eq_append.mp (marginWithin_begins_line limit line)
  -- Past the margin only a comment and the line break are left of the line.
  obtain ⟨tail, hrest, htail⟩ : ∃ tail, c.rest = line ++ tail ∧
      (tail = [] ∧ more = [] ∨ ∃ rest, tail = '\n' :: rest ∧ splitBreaks rest = more) := by
    rcases htail with ⟨hrest, hmore⟩ | ⟨rest, hrest, hmore⟩
    · exact ⟨[], by rw [hrest, List.append_nil], .inl ⟨rfl, hmore⟩⟩
    · exact ⟨_, hrest, .inr ⟨rest, rfl, hmore⟩⟩
  rw [← hpieces, List.append_assoc] at hrest
  rw [readIndent_margin_uniform hcolumn hrest (fun _ => isIndentChar_of_mem_marginWithin)
    (length_marginWithin_le line) huniform]
  generalize hd : c.pastMargin (marginWithin limit line)
    (line.drop (marginWithin limit line).length ++ tail) = d
  have hdrest : d.rest = line.drop (marginWithin limit line).length ++ tail := by rw [← hd]; rfl
  have hlimit : ∀ n ∈ limit, d.column ≤ n := by
    intro n hn
    rw [← hd]
    exact hshort n hn
  have hnext (rest : List Char) : (d.nextLine rest).line = c.line + 1 ∧
      (d.nextLine rest).style
        = styleAfter c.style (blanksAt c.line (marginWithin limit line)) := by
    rw [← hd]
    exact ⟨rfl, rfl⟩
  rcases hends with hnil | ⟨comment, hcomment⟩
  · rw [hnil, List.nil_append] at hdrest
    rcases htail with ⟨rfl, hmore⟩ | ⟨rest, rfl, hmore⟩
    · exact .inl ⟨hmore, d, readIndent_of_nil hdrest, hdrest⟩
    · have hread : d.read? = some ('\n', d.nextLine rest) := by simp [Cursor.read?, hdrest]
      exact .inr ⟨_, readIndent_lineEnd hlimit (by simp [atLineEnd, hdrest]) hread, hmore,
        (hnext rest).1, rfl, (hnext rest).2⟩
  · rw [hcomment, List.cons_append] at hdrest
    have hread : d.read?
        = some ('\n', d.nextLine (((comment ++ tail).dropWhile (· != '\n')).drop 1)) := by
      simp [Cursor.read?, hdrest]
    have hinside : ∀ ch ∈ comment, (ch != '\n') = true := by
      intro ch hch
      have hmem : ch ∈ line := by
        rw [← hpieces, hcomment]
        exact List.mem_append_right _ (List.mem_cons_of_mem _ hch)
      have : ch ≠ '\n' := fun heq => hline (heq ▸ hmem)
      simpa using this
    rw [List.dropWhile_append_of_pos hinside] at hread
    rw [readIndent_lineEnd hlimit (by simp [atLineEnd, hdrest]) hread]
    rcases htail with ⟨rfl, hmore⟩ | ⟨rest, rfl, hmore⟩
    · exact .inl ⟨hmore, _, readIndent_of_nil rfl, rfl⟩
    · exact .inr ⟨_, rfl, hmore, (hnext rest).1, rfl, (hnext rest).2⟩

/-- On a line that is not idle reading stops after the margin. -/
theorem readIndent_stops {line : List Char} (hcolumn : c.column = 1)
    (hrest : c.rest = line ++ tail) (hline : '\n' ∉ line) (hidle : isIdle limit line = false)
    (huniform : Uniform c.style (blanksAt c.line (marginWithin limit line))) :
    c.readIndent limit =
      (.ok (c.pastMargin (marginWithin limit line)
          (line.drop (marginWithin limit line).length ++ tail)).level,
        c.pastMargin (marginWithin limit line)
          (line.drop (marginWithin limit line).length ++ tail)) := by
  have hpieces := List.prefix_iff_eq_append.mp (marginWithin_begins_line limit line)
  rw [← hpieces, List.append_assoc] at hrest
  rw [readIndent_margin_uniform hcolumn hrest (fun _ => isIndentChar_of_mem_marginWithin)
    (length_marginWithin_le line) huniform]
  generalize hd : c.pastMargin (marginWithin limit line)
    (line.drop (marginWithin limit line).length ++ tail) = d
  have hdrest : d.rest = line.drop (marginWithin limit line).length ++ tail := by rw [← hd]; rfl
  cases hread : d.read? with
  | none =>
    have hnil := rest_eq_nil_of_read? hread
    rw [readIndent_of_nil hnil]
    simp [level, canRead, hnil]
  | some result =>
    rw [readIndent_of_read? hread]
    rcases drop_of_not_isIdle hidle with ⟨n, hn, hwidth⟩ | ⟨ch, rest, hdrop, hblank, hcomment⟩
    · obtain rfl : limit = some n := hn
      have hpast : n < d.column := by
        rw [← hd, pastMargin, hwidth]
        exact Nat.lt_succ_self n
      rw [if_pos (by simpa using hpast)]
    · rw [hdrop, List.cons_append] at hdrest
      have hbreak : ch ≠ '\n' := by
        rintro rfl
        exact hline (List.mem_of_mem_drop (hdrop ▸ List.mem_cons_self))
      have hend : d.atLineEnd = false := by simp [atLineEnd, hdrest, hbreak, hcomment]
      have hpeek : d.peek = some ch := by rw [peek, hdrest]; rfl
      rw [hend, hpeek]
      simp [hblank]

/-- The blanks that reading indentation comes across: the margins of idle lines, and the margin of
the line after them. -/
def blanks (limit : Option Nat) (c : Cursor) : List Blank :=
  blanksFrom limit c.line (splitBreaks c.rest)

/-- What reading indentation at the start of a line comes to. The lines are those that are left of
the text. -/
structure ReadsMargins (limit : Option Nat) (c : Cursor)
    (result : Except SyntaxError Nat × Cursor) : Prop where
  /-- A blank that is not of the style is an error, and the cursor stands in front of it. -/
  mixed : ∀ s b, FirstMixed c.style (c.blanks limit) s b →
    result.1 = .error ⟨.mixedIndentation s b.char, Span.point b.line b.column⟩ ∧
      result.2.line = b.line ∧ result.2.column = b.column ∧ result.2.peek = some b.char
  /-- Past idle lines only, the source has ended. -/
  ends : Uniform c.style (c.blanks limit) → (splitBreaks c.rest).all (isIdle limit) = true →
    result.1 = .ok 0 ∧ result.2.rest = []
  /-- Otherwise reading stops on the first line that is not idle, after its margin; without a limit
  text comes next. -/
  stops : Uniform c.style (c.blanks limit) → ∀ idle line more,
    splitBreaks c.rest = idle ++ line :: more → idle.all (isIdle limit) = true →
      isIdle limit line = false →
        result.2 = ⟨['\n'].intercalate (line.drop (marginWithin limit line).length :: more),
          c.line + idle.length, (marginWithin limit line).length + 1,
          styleAfter c.style (c.blanks limit)⟩ ∧
        result.1 = .ok (if result.2.canRead then (marginWithin limit line).length else 0) ∧
        (limit = none → ∃ ch, result.2.peek = some ch ∧ isIndentChar ch = false ∧ ch ≠ '#')

private theorem exists_intercalate_cons (more : List (List Char)) :
    ∃ tail, ∀ line, ['\n'].intercalate (line :: more) = line ++ tail := by
  cases more with
  | nil => exact ⟨[], fun line => by simp⟩
  | cons next more =>
    exact ⟨'\n' :: ['\n'].intercalate (next :: more), fun line => by
      rw [List.intercalate_cons_cons, List.append_assoc, List.singleton_append]⟩

private theorem blanks_of_splitBreaks (limit : Option Nat) {line : List Char}
    {more : List (List Char)}
    (h : splitBreaks c.rest = line :: more) :
    c.blanks limit = blanksAt c.line (marginWithin limit line)
      ++ if isIdle limit line then blanksFrom limit (c.line + 1) more else [] := by
  rw [blanks, h, blanksFrom]

/-- A margin of mixed styles settles what reading indentation comes to. -/
theorem readsMargins_of_mixed {line : List Char} {more : List (List Char)} (hcolumn : c.column = 1)
    (hsplit : splitBreaks c.rest = line :: more)
    (hmixed : ¬Uniform c.style (blanksAt c.line (marginWithin limit line))) :
    c.ReadsMargins limit (c.readIndent limit) := by
  have hblanks := blanks_of_splitBreaks limit hsplit
  have hnot : ¬Uniform c.style (c.blanks limit) := fun h => hmixed (hblanks ▸ h).left
  refine ⟨fun s b hfirst => ?_, fun h => absurd h hnot, fun h => absurd h hnot⟩
  obtain ⟨tail, hrest⟩ : ∃ tail, c.rest = marginWithin limit line ++ tail := by
    obtain ⟨behind, hbehind⟩ := marginWithin_begins_line limit line
    rcases (exists_tail_of_splitBreaks hsplit).2 with ⟨hrest, -⟩ | ⟨rest, hrest, -⟩
    · exact ⟨behind, by rw [hrest, hbehind]⟩
    · exact ⟨behind ++ '\n' :: rest, by rw [hrest, ← List.append_assoc, hbehind]⟩
  obtain ⟨d, hread, hd⟩ := readIndent_margin_mixed hcolumn hrest
    (fun _ => isIndentChar_of_mem_marginWithin) (length_marginWithin_le line)
    ((hblanks ▸ hfirst).left hmixed)
  rw [hread]
  exact ⟨rfl, hd⟩

/-- An idle line that is the last one is passed to the end of the source. -/
theorem readsMargins_of_last {line : List Char} (hsplit : splitBreaks c.rest = [line])
    (hidle : isIdle limit line = true)
    (huniform : Uniform c.style (blanksAt c.line (marginWithin limit line)))
    (hread : c.readIndent limit = (.ok 0, d)) (hrest : d.rest = []) :
    c.ReadsMargins limit (c.readIndent limit) := by
  have hblanks : c.blanks limit = blanksAt c.line (marginWithin limit line) ++ [] := by
    rw [blanks_of_splitBreaks limit hsplit, if_pos hidle, blanksFrom]
  rw [hread]
  refine ⟨fun s b hfirst => ?_, fun _ _ => ⟨rfl, hrest⟩,
    fun _ idle line' more hlines _ hline => ?_⟩
  · cases ((hblanks ▸ hfirst).right huniform).2
  · rw [hsplit] at hlines
    obtain ⟨rfl, hpair⟩ := List.append_eq_singleton_iff.mp hlines.symm |>.resolve_right
      fun h => List.cons_ne_nil _ _ h.2
    obtain ⟨rfl, -⟩ := List.cons.inj hpair
    rw [hidle] at hline
    cases hline

/-- An idle line adds its margin to the blanks that reading comes across from the line after it. -/
theorem ReadsMargins.of_idle {line : List Char} {more : List (List Char)}
    {result : Except SyntaxError Nat × Cursor} (h : d.ReadsMargins limit result)
    (hsplit : splitBreaks c.rest = line :: more) (hidle : isIdle limit line = true)
    (huniform : Uniform c.style (blanksAt c.line (marginWithin limit line)))
    (hdsplit : splitBreaks d.rest = more) (hdline : d.line = c.line + 1)
    (hdstyle : d.style = styleAfter c.style (blanksAt c.line (marginWithin limit line))) :
    c.ReadsMargins limit result := by
  have hblanks : c.blanks limit
      = blanksAt c.line (marginWithin limit line) ++ d.blanks limit := by
    rw [blanks_of_splitBreaks limit hsplit, if_pos hidle, blanks, hdline, hdsplit]
  refine ⟨fun s b hfirst => ?_, fun hall hlines => ?_,
    fun hall idle line' more' hlines hidles hline => ?_⟩
  · exact h.mixed s b (hdstyle ▸ (hblanks ▸ hfirst).right huniform)
  · rw [hsplit, List.all_cons, Bool.and_eq_true] at hlines
    exact h.ends (hdstyle ▸ (hblanks ▸ hall).right) (hdsplit ▸ hlines.2)
  · rw [hsplit] at hlines
    cases idle with
    | nil =>
      obtain ⟨rfl, -⟩ := List.cons.inj hlines
      rw [hidle] at hline
      cases hline
    | cons first idle =>
      obtain ⟨-, hlines⟩ := List.cons.inj hlines
      rw [List.all_cons, Bool.and_eq_true] at hidles
      have hstops := h.stops (hdstyle ▸ (hblanks ▸ hall).right) idle line' more'
        (hdsplit.trans hlines) hidles.2 hline
      rwa [hdline, hdstyle, ← styleAfter_append, ← hblanks, Nat.add_assoc,
        Nat.add_comm 1] at hstops

/-- Reading stops on a first line that is not idle. -/
theorem readsMargins_of_not_isIdle {line : List Char} {more : List (List Char)}
    (hcolumn : c.column = 1) (hsplit : splitBreaks c.rest = line :: more)
    (hidle : isIdle limit line = false)
    (huniform : Uniform c.style (blanksAt c.line (marginWithin limit line))) :
    c.ReadsMargins limit (c.readIndent limit) := by
  have hblanks : c.blanks limit = blanksAt c.line (marginWithin limit line) ++ [] := by
    rw [blanks_of_splitBreaks limit hsplit, hidle, if_neg Bool.false_ne_true]
  refine ⟨fun s b hfirst => ?_, fun _ hlines => ?_,
    fun _ idle line' more' hlines hidles _ => ?_⟩
  · cases ((hblanks ▸ hfirst).right huniform).2
  · rw [hsplit, List.all_cons, hidle] at hlines
    cases hlines
  · rw [hsplit] at hlines
    cases idle with
    | cons first idle =>
      obtain ⟨rfl, -⟩ := List.cons.inj hlines
      rw [List.all_cons, hidle] at hidles
      cases hidles
    | nil =>
      obtain ⟨rfl, rfl⟩ := List.cons.inj hlines
      obtain ⟨tail, htail⟩ := exists_intercalate_cons more
      have hrest : c.rest = line ++ tail := by
        rw [← htail, ← hsplit, intercalate_splitBreaks]
      rw [readIndent_stops hcolumn hrest (exists_tail_of_splitBreaks hsplit).1 hidle huniform,
        htail, hblanks, List.append_nil]
      refine ⟨rfl, rfl, fun hlimit => ?_⟩
      rcases drop_of_not_isIdle hidle with ⟨n, hn, -⟩ | ⟨ch, rest, hdrop, hch⟩
      · rw [hlimit] at hn
        cases hn
      · exact ⟨ch, by rw [peek, pastMargin, hdrop]; rfl, hch⟩

/-- Reading indentation line by line. -/
theorem readsMargins_readIndent (limit : Option Nat) {lines : List (List Char)} {c : Cursor}
    (hcolumn : c.column = 1) (hsplit : splitBreaks c.rest = lines) :
    c.ReadsMargins limit (c.readIndent limit) := by
  induction lines generalizing c with
  | nil => exact absurd hsplit (splitBreaks_ne_nil c.rest)
  | cons line more ih =>
    by_cases huniform : Uniform c.style (blanksAt c.line (marginWithin limit line))
    · cases hidle : isIdle limit line with
      | false => exact readsMargins_of_not_isIdle hcolumn hsplit hidle huniform
      | true =>
        rcases readIndent_idle hcolumn hsplit hidle huniform with
          ⟨rfl, d, hread, hrest⟩ | ⟨d, hread, hdsplit, hdline, hdcolumn, hdstyle⟩
        · exact readsMargins_of_last hsplit hidle huniform hread hrest
        · rw [hread]
          exact (ih hdcolumn hdsplit).of_idle hsplit hidle huniform hdsplit hdline hdstyle
    · exact readsMargins_of_mixed hcolumn hsplit huniform

private theorem ReadsMargins.error_iff {result : Except SyntaxError Nat × Cursor}
    (h : c.ReadsMargins limit result) (e : SyntaxError) :
    result.1 = .error e ↔ ∃ s b, FirstMixed c.style (c.blanks limit) s b ∧
      e = ⟨.mixedIndentation s b.char, Span.point b.line b.column⟩ := by
  constructor
  · intro herror
    have hmixed : ¬Uniform c.style (c.blanks limit) := by
      intro huniform
      -- Blanks of one style lead to the end of the source or to a line that is not idle.
      by_cases hall : (splitBreaks c.rest).all (isIdle limit) = true
      · rw [(h.ends huniform hall).1] at herror
        cases herror
      · obtain ⟨idle, line, more, hlines, hidle, hline⟩ := exists_not_isIdle hall
        rw [(h.stops huniform idle line more hlines hidle hline).2.1] at herror
        cases herror
    obtain ⟨s, b, hfirst⟩ := exists_firstMixed hmixed
    rw [(h.mixed s b hfirst).1] at herror
    exact ⟨s, b, hfirst, (Except.error.inj herror).symm⟩
  · rintro ⟨s, b, hfirst, rfl⟩
    exact (h.mixed s b hfirst).1

/-- At the start of a line reading indentation passes the idle lines and stops after the margin of
the next line, or at the first blank that is not of the style, which is the only error. -/
theorem indent_reads_margins (c : Cursor) (hcolumn : c.column = 1) (limit : Option Nat) :
    c.indent limit
        = ((c.readIndent limit).1.mapError .malformed, (c.readIndent limit).2) ∧
      c.ReadsMargins limit (c.readIndent limit) ∧
      ∀ e, (c.readIndent limit).1 = .error e ↔
        ∃ s b, FirstMixed c.style (c.blanks limit) s b ∧
          e = ⟨.mixedIndentation s b.char, Span.point b.line b.column⟩ := by
  have hreads := readsMargins_readIndent limit hcolumn rfl
  refine ⟨?_, hreads, hreads.error_iff⟩
  rw [indent, if_pos (by simp [atLineStart, hcolumn])]
  rcases c.readIndent limit with ⟨width | e, d⟩ <;> rfl

/-- A comment and an empty line are passed, and the tab after a space is an error; with a limit, a
blank line that is as wide as the limit is not passed. -/
theorem indent_reads_margins_mixed :
    (ofText "  #\n\n \tx").column = 1 ∧
      ((ofText "  #\n\n \tx").indent none).1
        = .error (.malformed ⟨.mixedIndentation ' ' '\t', Span.point 3 2⟩) ∧
      ((ofText "\n  \nx").indent (some 2)) = (.ok 2, ⟨"\nx".toList, 2, 3, some ' '⟩) := by
  obtain ⟨hmixed, hreads, -⟩ := indent_reads_margins (ofText "  #\n\n \tx") rfl none
  obtain ⟨hwide, hreads', -⟩ := indent_reads_margins (ofText "\n  \nx") rfl (some 2)
  have hstops := hreads'.stops (by decide) [[]] [' ', ' '] [['x']] (by decide) (by decide)
    (by decide)
  refine ⟨rfl, ?_, ?_⟩
  · rw [hmixed, (hreads.mixed ' ' ⟨'\t', 3, 2⟩ ⟨by decide, by decide⟩).1]
    rfl
  · rw [hwide, hstops.2.1, hstops.1]
    rfl

end Cursor

end DialogScript
