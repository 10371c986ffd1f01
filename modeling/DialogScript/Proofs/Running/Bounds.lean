import DialogScript.Proofs.Running.Simulation
import DialogScript.Proofs.Storing.Loading

/-!
# Runs take a bounded number of steps

A stored program may have any node anywhere, and its nodes may claim to be on any line. Guards of
loops are known by lines, so a loop inside another loop on the same line, when it ends, forgets
the guard of the loop around it, and that loop can go on forever
(`play_sameLine_interrupted`). This is the only way around the limit: in a program in which no loop
is on the line of a loop around it (`LoopsApart`), the body of a loop is entered at most as often
as the limit allows each time the loop is begun, and the run takes at most `stepBoundAll` steps,
which is a product over the nesting of its loops, whatever its host answers
(`course_bounded_of_loopsApart`).

The invariant behind this, `Kept`, pairs each pending statement with the number of times its body
was entered: the guards of a run are exactly those of the pending loops that were entered.
-/

namespace DialogScript

namespace Stmt

mutual

/-- No loop in a statement is on the line of a loop around it. -/
def LoopsApart : Stmt → Prop
  | .loop _ body span => span.line ∉ loopLines body ∧ LoopsApart body
  | .block body _ => LoopsApartAll body
  | .choice first others otherwise _ =>
    LoopsApart first ∧ LoopsApartAll others ∧ LoopsApart otherwise
  | .branch _ body _ => LoopsApart body
  | _ => True

/-- No loop in statements is on the line of a loop around it. -/
def LoopsApartAll : List Stmt → Prop
  | [] => True
  | s :: rest => LoopsApart s ∧ LoopsApartAll rest

end

mutual

/-- How many steps a statement takes at most, if a loop may have `limit` iterations. -/
def stepBound (limit : Nat) : Stmt → Nat
  | .input _ _ _ => 2
  | .block body _ => 1 + stepBoundAll limit body
  | .loop _ body _ => 1 + limit * (1 + stepBound limit body)
  | .choice first others otherwise _ =>
    1 + (stepBound limit first + stepBoundAll limit others) + stepBound limit otherwise
  | .branch _ body _ => stepBound limit body
  | _ => 1

/-- How many steps statements take at most. -/
def stepBoundAll (limit : Nat) : List Stmt → Nat
  | [] => 0
  | s :: rest => stepBound limit s + stepBoundAll limit rest

end

theorem LoopsApartAll.of_mem {ss : List Stmt} (h : LoopsApartAll ss) : ∀ s ∈ ss, LoopsApart s := by
  induction ss with
  | nil => simp
  | cons s rest ih => exact List.forall_mem_cons.mpr ⟨h.1, ih h.2⟩

private theorem mem_loopLinesAll {ss : List Stmt} {s : Stmt} (hs : s ∈ ss) {line : Int}
    (hline : line ∈ loopLines s) : line ∈ loopLinesAll ss := by
  induction ss with
  | nil => cases hs
  | cons first rest ih =>
    rw [loopLinesAll, List.mem_append]
    rcases List.mem_cons.mp hs with rfl | hs
    · exact .inl hline
    · exact .inr (ih hs)

mutual

/-- In a statement that can be run no loop is on the line of a loop around it. -/
theorem Runnable.loopsApart {s : Stmt} (h : Runnable s) : LoopsApart s := by
  match h with
  | .assign | .output | .input => trivial
  | .block hbody => exact hbody.loopsApart
  | .loop hbody hline => exact ⟨hline, hbody.loopsApart⟩
  | .choice hbranches hotherwise =>
    obtain ⟨hfirst, hothers⟩ := hbranches.loopsApart
    exact ⟨hfirst, hothers, hotherwise.loopsApart⟩
  | .choiceOrNothing hbranches =>
    obtain ⟨hfirst, hothers⟩ := hbranches.loopsApart
    exact ⟨hfirst, hothers, trivial⟩
termination_by structural h

theorem RunnableAll.loopsApart {ss : List Stmt} (h : RunnableAll ss) : LoopsApartAll ss := by
  match h with
  | .nil => trivial
  | .cons hfirst hrest => exact ⟨hfirst.loopsApart, hrest.loopsApart⟩
termination_by structural h

theorem Branches.loopsApart {branches : List Stmt} (h : Branches branches) :
    LoopsApartAll branches := by
  match h with
  | .nil => trivial
  | .cons hbody hrest => exact ⟨hbody.loopsApart, hrest.loopsApart⟩
termination_by structural h

end

private theorem stepBound_le_all {ss : List Stmt} {s : Stmt} (hs : s ∈ ss) (limit : Nat) :
    stepBound limit s ≤ stepBoundAll limit ss := by
  induction ss with
  | nil => cases hs
  | cons first rest ih =>
    rw [stepBoundAll]
    rcases List.mem_cons.mp hs with rfl | hs
    · exact Nat.le_add_right _ _
    · exact Nat.le_trans (ih hs) (Nat.le_add_left _ _)

end Stmt

open Stmt

/-- A run goes on after a step: the step neither ended the run nor failed. -/
def RunStep.GoesOn (s : RunStep) : Prop := s.outcome = .quiet ∨ ∃ item, s.outcome = .item item

namespace Run

/-! ### Courses

How often the body of a loop was entered since the loop was begun is not part of a run. It is told
here beside the run, for every pending statement: a statement that comes onto the stack has not
been entered, and a loop whose condition holds has been entered once more. -/

/-- How often the bodies of the pending statements have been entered after a step from `r` to
`after`, if it was `entries` before the step. -/
def entriesAfter (entries : List Nat) (r after : Run) : List Nat :=
  match r.stage with
  | .waiting => entries
  | .ended => entries
  | _ =>
    match r.fetch with
    | .ok (some (.loop _ _ _, left)) =>
      if left.pending.length < after.pending.length then
        0 :: (entries.headD 0 + 1) :: entries.tail
      else entries.tail
    | .ok (some (_, left)) =>
      List.replicate (after.pending.length - left.pending.length) 0 ++ entries.tail
    | _ => entries

/-- The states that a run comes to from its start after a number of steps, none of which ended it,
with any answers of its host; and how often the bodies of the pending statements have been
entered. -/
inductive Course (i₀ : Interpreter) (r₀ : Run) : Nat → Interpreter → Run → List Nat → Prop
  | start : Course i₀ r₀ 0 (start i₀ r₀).1 (start i₀ r₀).2 []
  | step {steps : Nat} {i : Interpreter} {r : Run} {entries : List Nat}
      (h : Course i₀ r₀ steps i r entries) (hgoes : (step i r).GoesOn) :
      Course i₀ r₀ (steps + 1) (step i r).interpreter (step i r).run
        (entriesAfter entries r (step i r).run)
  | give {steps : Nat} {i : Interpreter} {r r' : Run} {entries : List Nat} {request : Request}
      {value : HostValue} (h : Course i₀ r₀ steps i r entries)
      (hrequest : r.request = some request) (hgive : r.give request value = .ok r') :
      Course i₀ r₀ steps i r' entries

/-! ### The invariant -/

/-- The guards of the loops on a stack that have been entered. -/
def guardsOf : List (Stmt × Nat) → LoopGuards
  | [] => []
  | (.loop _ _ span, entries) :: rest => guardsAt (guardsOf rest) span entries
  | _ :: rest => guardsOf rest

/-- A stack in which no loop was entered more often than the limit allows, and no statement has a
loop on the line of a loop below it that was entered. -/
inductive Stacked (limit : Nat) : List (Stmt × Nat) → Prop
  | nil : Stacked limit []
  | cons {s : Stmt} {entries : Nat} {rest : List (Stmt × Nat)} (hapart : s.LoopsApart)
      (hfree : Free (guardsOf rest) (loopLines s)) (hle : entries ≤ limit)
      (hrest : Stacked limit rest) : Stacked limit ((s, entries) :: rest)

/-- How many more steps a statement on the stack takes at most. -/
def stepsLeft (limit : Nat) : Stmt × Nat → Nat
  | (.loop _ body _, entries) => 1 + (limit - entries) * (1 + stepBound limit body)
  | (s, _) => stepBound limit s

/-- How many more steps the statements on a stack take at most. -/
def stepsLeftAll (limit : Nat) (stack : List (Stmt × Nat)) : Nat :=
  (stack.map (stepsLeft limit)).sum

/-- A run whose guards are those of the pending loops that were entered. -/
structure Kept (limit : Nat) (r : Run) (entries : List Nat) : Prop where
  begun : r.stage ≠ .fresh
  length : entries.length = r.pending.length
  stack : Stacked limit (r.pending.zip entries)
  guards : r.guards = guardsOf (r.pending.zip entries)
  incoming : LoopsApartAll r.incoming.items

/-- How many more steps a run takes at most. -/
def stepsAhead (limit : Nat) (r : Run) (entries : List Nat) : Nat :=
  (if r.stage = .waiting then 1 else 0) + stepsLeftAll limit (r.pending.zip entries)
    + stepBoundAll limit r.incoming.items

variable {limit : Nat} {i : Interpreter} {r : Run} {entries : List Nat}

@[simp]
theorem stepsLeft_zero (limit : Nat) (s : Stmt) : stepsLeft limit (s, 0) = stepBound limit s := by
  cases s <;> simp [stepsLeft, stepBound]

private theorem guardsOf_of_not_loop {s : Stmt}
    (h : ∀ condition body span, s ≠ .loop condition body span)
    (count : Nat) (rest : List (Stmt × Nat)) : guardsOf ((s, count) :: rest) = guardsOf rest := by
  cases s with
  | loop condition body span => exact absurd rfl (h condition body span)
  | _ => rfl

@[simp]
theorem guardsOf_zero (s : Stmt) (rest : List (Stmt × Nat)) :
    guardsOf ((s, 0) :: rest) = guardsOf rest := by
  cases s <;> rfl

private theorem Stacked.entries_le {stack : List (Stmt × Nat)} (h : Stacked limit stack) :
    ∀ frame ∈ stack, frame.2 ≤ limit := by
  induction h with
  | nil => simp
  | cons _ _ hle _ ih => exact List.forall_mem_cons.mpr ⟨hle, ih⟩

private theorem Kept.entries_le (h : Kept limit r entries) : ∀ count ∈ entries, count ≤ limit := by
  intro count hcount
  have hsnd : (r.pending.zip entries).map Prod.snd = entries :=
    List.map_snd_zip (Nat.le_of_eq h.length)
  rw [← hsnd] at hcount
  obtain ⟨frame, hframe, rfl⟩ := List.mem_map.mp hcount
  exact h.stack.entries_le frame hframe

/-! ### Fetching and pushing -/

/-- What is known of a statement that was fetched and of the run without it. -/
structure Fetched (limit : Nat) (r : Run) (entries : List Nat) (s : Stmt) (left : Run) : Prop where
  stage : left.stage = r.stage
  length : entries.tail.length = left.pending.length
  stack : Stacked limit ((s, entries.headD 0) :: left.pending.zip entries.tail)
  guards : left.guards = guardsOf ((s, entries.headD 0) :: left.pending.zip entries.tail)
  incoming : LoopsApartAll left.incoming.items
  ahead : stepsLeft limit (s, entries.headD 0) + stepsLeftAll limit (left.pending.zip entries.tail)
    + stepBoundAll limit left.incoming.items ≤ stepsAhead limit r entries

private theorem Kept.fetched (h : Kept limit r entries) {s : Stmt} {left : Run}
    (hfetch : r.fetch = .ok (some (s, left))) : Fetched limit r entries s left := by
  obtain ⟨-, hlength, hstack, hguards, hincoming⟩ := h
  rcases fetch_eq_some hfetch with ⟨rest, hpending, rfl⟩ | ⟨rest, hpending, hitems, rfl⟩
  · rw [hpending] at hlength hstack hguards
    obtain ⟨count, counts, rfl⟩ : ∃ count counts, entries = count :: counts :=
      List.exists_cons_of_length_eq_add_one hlength
    refine ⟨rfl, by simpa using hlength, hstack, hguards, hincoming, ?_⟩
    simp only [stepsAhead, hpending, List.zip_cons_cons, stepsLeftAll, List.map_cons, List.sum_cons,
      List.headD_cons, List.tail_cons]
    omega
  · -- Nothing is pending, so no loop is going on and there are no guards.
    rw [hpending] at hlength hguards
    obtain rfl : entries = [] := List.eq_nil_of_length_eq_zero hlength
    rw [hitems] at hincoming
    refine ⟨rfl, by simp [hpending], ?_, ?_, hincoming.2, ?_⟩
    · simp only [hpending, List.zip_nil_left]
      exact .cons hincoming.1 (List.forall_mem_nil _) (Nat.zero_le _) .nil
    · simp only [hpending, hguards, List.headD_nil, List.zip_nil_left, guardsOf_zero]
    · simp only [stepsAhead, hpending, hitems, List.zip_nil_left, stepsLeftAll, List.map_nil,
        List.sum_nil, List.headD_nil, stepsLeft_zero, stepBoundAll]
      omega

/-- A stack with statements put on top that were not entered. -/
theorem guardsOf_fresh (ss : List Stmt) (rest : List (Stmt × Nat)) :
    guardsOf (ss.map (·, 0) ++ rest) = guardsOf rest := by
  induction ss with
  | nil => rfl
  | cons s ss ih => rw [List.map_cons, List.cons_append, guardsOf_zero, ih]

theorem Stacked.pushAll {ss : List Stmt} {rest : List (Stmt × Nat)} (h : Stacked limit rest)
    (hapart : ∀ s ∈ ss, s.LoopsApart) (hfree : ∀ s ∈ ss, Free (guardsOf rest) (loopLines s)) :
    Stacked limit (ss.map (·, 0) ++ rest) := by
  induction ss with
  | nil => exact h
  | cons s ss ih =>
    obtain ⟨hs, hss⟩ := List.forall_mem_cons.mp hapart
    obtain ⟨hfirst, hothers⟩ := List.forall_mem_cons.mp hfree
    exact .cons hs ((guardsOf_fresh ss rest).symm ▸ hfirst) (Nat.zero_le _) (ih hss hothers)

private theorem stepsLeftAll_fresh (limit : Nat) (ss : List Stmt) (rest : List (Stmt × Nat)) :
    stepsLeftAll limit (ss.map (·, 0) ++ rest)
      = stepBoundAll limit ss + stepsLeftAll limit rest := by
  induction ss with
  | nil => simp [stepBoundAll]
  | cons s ss ih =>
    simp only [stepsLeftAll, List.map_cons, List.cons_append, List.sum_cons, stepsLeft_zero,
      stepBoundAll] at ih ⊢
    omega

private theorem zip_fresh (ss pending : List Stmt) (counts : List Nat) :
    (ss ++ pending).zip (List.replicate ss.length 0 ++ counts)
      = ss.map (·, 0) ++ pending.zip counts := by
  induction ss with
  | nil => rfl
  | cons s ss ih =>
    simp only [List.cons_append, List.length_cons, List.replicate_succ, List.zip_cons_cons,
      List.map_cons, ih]

/-- What a step that goes on leaves: a run that keeps the invariant and has fewer steps ahead. -/
structure StepKept (limit : Nat) (r : Run) (entries : List Nat) (after : Run) : Prop where
  kept : Kept limit after (entriesAfter entries r after)
  ahead : stepsAhead limit after (entriesAfter entries r after) < stepsAhead limit r entries

/-- A statement other than a loop puts parts of itself on the stack, which were not entered. -/
theorem Fetched.pushed {s : Stmt} {left after : Run} (h : Fetched limit r entries s left)
    (hloop : ∀ condition body span, s ≠ .loop condition body span)
    (hentries : entriesAfter entries r after
      = List.replicate (after.pending.length - left.pending.length) 0 ++ entries.tail)
    (ss : List Stmt) (hpending : after.pending = ss ++ left.pending)
    (hguards : after.guards = left.guards) (hincoming : after.incoming = left.incoming)
    (hbegun : after.stage ≠ .fresh) (hapart : ∀ s ∈ ss, s.LoopsApart)
    (hlines : ∀ part ∈ ss, ∀ line ∈ loopLines part, line ∈ loopLines s)
    (hsteps : (if after.stage = .waiting then 1 else 0) + stepBoundAll limit ss
      < stepBound limit s) : StepKept limit r entries after := by
  have hcounts : entriesAfter entries r after
      = List.replicate ss.length 0 ++ entries.tail := by
    rw [hentries, hpending, List.length_append, Nat.add_sub_cancel]
  have hzip : after.pending.zip (entriesAfter entries r after)
      = ss.map (·, 0) ++ left.pending.zip entries.tail := by
    rw [hcounts, hpending, zip_fresh]
  have hbelow := guardsOf_of_not_loop hloop (entries.headD 0) (left.pending.zip entries.tail)
  cases h.stack with
  | cons _ hfree _ hrest =>
    refine ⟨⟨hbegun, ?_, ?_, ?_, by rw [hincoming]; exact h.incoming⟩, ?_⟩
    · rw [hcounts, hpending, List.length_append, List.length_append, List.length_replicate,
        h.length]
    · rw [hzip]
      exact hrest.pushAll hapart fun part hpart => hfree.mono (hlines part hpart)
    · rw [hzip, guardsOf_fresh, hguards, h.guards, hbelow]
    · have hleft : stepsLeft limit (s, entries.headD 0) = stepBound limit s := by
        cases s with
        | loop condition body span => exact absurd rfl (hloop condition body span)
        | _ => rfl
      have hahead := h.ahead
      rw [hleft] at hahead
      rw [stepsAhead, hzip, stepsLeftAll_fresh, hincoming]
      omega

/-! ### Steps -/

/-- Choosing a branch changes nothing but the trace. -/
theorem chooseBranch_interpreter (i : Interpreter) (branches : List Stmt) :
    ∃ trace, (chooseBranch i branches).2 = { i with trace := trace } := by
  fun_induction chooseBranch i branches with
  | case1 | case2 | case5 | case8 => exact ⟨_, rfl⟩
  | case3 | case6 => exact ⟨_, rfl⟩
  | case4 i condition other span rest holds noted _ _ ih
  | case7 i condition other span rest holds noted _ _ ih =>
    obtain ⟨trace, htrace⟩ := ih
    exact ⟨trace, htrace⟩

/-- A branch that is chosen is the body of one of the branches. -/
theorem mem_of_chooseBranch {branches : List Stmt} {body : Stmt}
    (h : (chooseBranch i branches).1 = .ok (some body)) :
    ∃ condition span, .branch condition body span ∈ branches := by
  fun_induction chooseBranch i branches with
  | case1 | case2 | case5 | case6 | case8 => cases h
  | case3 i condition chosen span rest holds =>
    obtain rfl := Option.some.inj (Except.ok.inj h)
    exact ⟨condition, span, by simp⟩
  | case4 i condition other span rest _ _ _ _ ih
  | case7 i condition other span rest _ _ _ _ ih =>
    obtain ⟨condition', span', hmem⟩ := ih h
    exact ⟨condition', span', by simp [hmem]⟩

/-- No step changes the limit. -/
theorem limit_step (i : Interpreter) (r : Run) : (step i r).interpreter.limit = i.limit := by
  unfold step
  split
  · rfl
  · unfold takeAnswer
    split
    · rfl
    · split <;> rfl
  · split
    · rfl
    · rfl
    · rename_i s left _
      cases s with
      | output | assign =>
        rw [execute]
        split <;> rfl
      | input =>
        rw [execute]
        split <;> rfl
      | loop =>
        rw [execute, loopStep]
        split
        · rfl
        · rfl
        · dsimp only
          split <;> rfl
      | choice first others otherwise span =>
        obtain ⟨trace, htrace⟩ := chooseBranch_interpreter i (first :: others)
        rw [execute]
        split
        · rename_i heq
          rw [heq] at htrace
          have hlimit := congrArg Interpreter.limit htrace
          exact hlimit
        · rename_i heq
          rw [heq] at htrace
          have hlimit := congrArg Interpreter.limit htrace
          split <;> exact hlimit
      | block | branch | expression | program | absent => rfl

/-- A branch that is chosen is a part of its choice. -/
theorem chosen_part {first otherwise : Stmt} {others : List Stmt} {span : Span}
    {chosen : Option Stmt} (h : (chooseBranch i (first :: others)).1 = .ok chosen)
    (hapart : LoopsApart (.choice first others otherwise span)) (limit : Nat) :
    (chosen.getD otherwise).LoopsApart ∧
      (∀ line ∈ loopLines (chosen.getD otherwise),
        line ∈ loopLines (.choice first others otherwise span)) ∧
      stepBound limit (chosen.getD otherwise)
        < stepBound limit (.choice first others otherwise span) := by
  obtain ⟨hfirst, hothers, hotherwise⟩ := hapart
  cases chosen with
  | none =>
    refine ⟨hotherwise, fun line hline => ?_, ?_⟩
    · rw [loopLines]
      exact List.mem_append_right _ hline
    · simp only [stepBound, Option.getD_none]
      omega
  | some body =>
    obtain ⟨condition, branchSpan, hmem⟩ := mem_of_chooseBranch h
    have hall : LoopsApartAll (first :: others) := ⟨hfirst, hothers⟩
    have hbranch := hall.of_mem _ hmem
    refine ⟨hbranch, fun line hline => ?_, ?_⟩
    · rw [loopLines]
      exact List.mem_append_left _ (mem_loopLinesAll hmem hline)
    · have hle := stepBound_le_all hmem limit
      simp only [stepBound, stepBoundAll, Option.getD_some] at hle ⊢
      omega

section Loops

variable {condition : Expr} {body : Stmt} {span : Span} {left : Run}

/-- A loop that ends leaves what is below it, with the guards of that. -/
theorem Fetched.loopEnded (h : Fetched limit r entries (.loop condition body span) left)
    (hfetch : r.fetch = .ok (some (.loop condition body span, left)))
    (hstage : r.stage = .active) :
    StepKept limit r entries
      (left.going left.pending (guardsOf (left.pending.zip entries.tail))) := by
  have hentries : entriesAfter entries r
      (left.going left.pending (guardsOf (left.pending.zip entries.tail))) = entries.tail := by
    simp only [entriesAfter, hstage, hfetch]
    exact if_neg (Nat.lt_irrefl _)
  cases h.stack with
  | cons _ _ _ hrest =>
    refine ⟨⟨by simp [going], ?_, ?_, ?_, h.incoming⟩, ?_⟩ <;> rw [hentries]
    · exact h.length
    · exact hrest
    · rfl
    · have hahead := h.ahead
      rw [stepsLeft] at hahead
      rw [stepsAhead]
      simp only [going, reduceCtorEq, if_false]
      omega

/-- A loop that is entered once more stays below its body, with its guard counted up. -/
theorem Fetched.loopEntered (h : Fetched limit r entries (.loop condition body span) left)
    (hfetch : r.fetch = .ok (some (.loop condition body span, left)))
    (hstage : r.stage = .active) (hless : entries.headD 0 < limit) :
    StepKept limit r entries (left.going (body :: .loop condition body span :: left.pending)
      (guardsAt (guardsOf (left.pending.zip entries.tail)) span (entries.headD 0 + 1))) := by
  have hentries : entriesAfter entries r
      (left.going (body :: .loop condition body span :: left.pending)
        (guardsAt (guardsOf (left.pending.zip entries.tail)) span (entries.headD 0 + 1)))
        = 0 :: (entries.headD 0 + 1) :: entries.tail := by
    simp only [entriesAfter, hstage, hfetch]
    exact if_pos (Nat.lt_succ_of_lt (Nat.lt_succ_self _))
  cases h.stack with
  | cons hapart hfree _ hrest =>
    have hinner : Free (guardsOf (left.pending.zip entries.tail)) (loopLines body) :=
      hfree.mono fun line hline => List.mem_cons_of_mem _ hline
    refine ⟨⟨by simp [going], ?_, ?_, ?_, h.incoming⟩, ?_⟩ <;> rw [hentries]
    · simp only [going, List.length_cons, h.length]
    · exact .cons hapart.2 (free_guardsAt hinner hapart.1 _) (Nat.zero_le _)
        (.cons hapart hfree hless hrest)
    · simp only [going, List.zip_cons_cons, guardsOf_zero]
      rfl
    · -- The body and one iteration less are ahead.
      have hahead := h.ahead
      obtain ⟨more, hmore⟩ : ∃ more, limit - entries.headD 0 = more + 1 :=
        ⟨limit - entries.headD 0 - 1, by omega⟩
      have hnext : limit - (entries.headD 0 + 1) = more := by omega
      simp only [stepsLeft, hmore, Nat.succ_mul] at hahead
      rw [stepsAhead]
      simp only [going, reduceCtorEq, if_false, List.zip_cons_cons, stepsLeftAll,
        List.map_cons, List.sum_cons, stepsLeft_zero]
      simp only [stepsLeft, hnext]
      unfold stepsLeftAll at hahead
      omega

/-- A loop that goes on ends or is entered once more, which its guard allows only below the
limit. -/
theorem Fetched.loop (h : Fetched limit r entries (.loop condition body span) left)
    (hfetch : r.fetch = .ok (some (.loop condition body span, left)))
    (hstage : r.stage = .active) (hlimit : i.limit = limit)
    (hgoes : (loopStep i left condition body span).GoesOn) :
    StepKept limit r entries (loopStep i left condition body span).run := by
  have hactive : left.stage = .active := h.stage.trans hstage
  have hguards : left.guards
      = guardsAt (guardsOf (left.pending.zip entries.tail)) span (entries.headD 0) := h.guards
  have hline : Free (guardsOf (left.pending.zip entries.tail)) [span.line] := by
    cases h.stack with
    | cons _ hfree _ _ => exact hfree.mono (by simp [loopLines])
  have hleft : ∀ guards, { left with guards := guards } = left.going left.pending guards := by
    intro guards
    unfold going
    rw [← hactive]
  cases hcondition : condition.evalCondition i.environment with
  | error e =>
    rcases hgoes with hgoes | ⟨item, hgoes⟩ <;> simp [loopStep, hcondition] at hgoes
  | ok holds =>
    cases holds with
    | false =>
      have hafter : (loopStep i left condition body span).run
          = left.going left.pending (guardsOf (left.pending.zip entries.tail)) := by
        simp only [loopStep, hcondition, hguards, forget_guardsAt hline, hleft]
      rw [hafter]
      exact h.loopEnded hfetch hstage
    | true =>
      have hstep : loopStep i (left.going left.pending (guardsAt
          (guardsOf (left.pending.zip entries.tail)) span (entries.headD 0))) condition body span
            = _ := loopStep_of_holds hcondition hline
      rw [← hleft, ← hguards] at hstep
      rw [hstep, hlimit] at hgoes ⊢
      split at hgoes
      · rename_i hless
        rw [if_pos hless]
        exact h.loopEntered hfetch hstage hless
      · rcases hgoes with hgoes | ⟨item, hgoes⟩ <;> cases hgoes

end Loops

/-- A choice that goes on puts the chosen branch on the stack, or nothing. -/
theorem Fetched.choice {first otherwise : Stmt} {others : List Stmt} {span : Span} {left : Run}
    (h : Fetched limit r entries (.choice first others otherwise span) left)
    (hfetch : r.fetch = .ok (some (.choice first others otherwise span, left)))
    (hstage : r.stage = .active)
    (hgoes : (execute i left (.choice first others otherwise span)).GoesOn) :
    StepKept limit r entries (execute i left (.choice first others otherwise span)).run := by
  have hactive : left.stage = .active := h.stage.trans hstage
  have hentries : ∀ after : Run, entriesAfter entries r after
      = List.replicate (after.pending.length - left.pending.length) 0 ++ entries.tail := by
    intro after
    simp only [entriesAfter, hstage, hfetch]
  have hapart : LoopsApart (.choice first others otherwise span) := by
    cases h.stack with
    | cons hapart _ _ _ => exact hapart
  rw [execute] at hgoes ⊢
  split at hgoes
  · rcases hgoes with hgoes | ⟨item, hgoes⟩ <;> cases hgoes
  · rename_i chosen _ hchosen
    obtain ⟨hpart, hlines, hsteps⟩ := chosen_part (by rw [hchosen]) hapart limit
    split
    · refine h.pushed (by simp) (hentries _) [] rfl rfl rfl (by simp [hactive]) (by simp)
        (by simp) ?_
      simp only [hactive, stepBoundAll, reduceCtorEq, if_false]
      omega
    · refine h.pushed (by simp) (hentries _) [chosen.getD otherwise] rfl rfl rfl
        (by simp [push, hactive]) (by simpa using hpart) (by simpa using hlines) ?_
      simp only [push, hactive, stepBoundAll, reduceCtorEq, if_false]
      omega

/-- A statement that goes on keeps the invariant and has fewer steps ahead. -/
theorem Fetched.execute {s : Stmt} {left : Run} (h : Fetched limit r entries s left)
    (hfetch : r.fetch = .ok (some (s, left))) (hstage : r.stage = .active)
    (hlimit : i.limit = limit) (hgoes : (execute i left s).GoesOn) :
    StepKept limit r entries (execute i left s).run := by
  have hactive : left.stage = .active := h.stage.trans hstage
  cases s with
  | loop => exact h.loop hfetch hstage hlimit hgoes
  | choice => exact h.choice hfetch hstage hgoes
  | output | assign =>
    have hleft : StepKept limit r entries left :=
      h.pushed (by simp) (by simp only [entriesAfter, hstage, hfetch]) [] rfl rfl rfl
        (by simp [hactive]) (by simp) (by simp) (by simp [hactive, stepBoundAll, stepBound])
    rw [Run.execute]
    split <;> exact hleft
  | block body span =>
    have hapart : LoopsApartAll body := by
      cases h.stack with
      | cons hapart _ _ _ => exact hapart
    refine h.pushed (by simp) (by simp only [entriesAfter, hstage, hfetch]) body rfl rfl
      rfl (by simp [Run.execute, hactive]) hapart.of_mem
      (fun part hpart line hline => mem_loopLinesAll hpart hline) ?_
    simp only [Run.execute, hactive, stepBound, reduceCtorEq, if_false]
    omega
  | input name form span =>
    rw [Run.execute] at hgoes ⊢
    split at hgoes
    · rcases hgoes with hgoes | ⟨item, hgoes⟩ <;> cases hgoes
    · exact h.pushed (by simp) (by simp only [entriesAfter, hstage, hfetch]) [] rfl rfl rfl
        (by simp) (by simp) (by simp) (by simp [stepBoundAll, stepBound])
  | branch | expression | program | absent =>
    rcases hgoes with hgoes | ⟨item, hgoes⟩ <;> cases hgoes

/-- A step after which the run goes on keeps the invariant and leaves fewer steps ahead. -/
theorem Kept.step (h : Kept limit r entries) (hlimit : i.limit = limit)
    (hgoes : (step i r).GoesOn) : StepKept limit r entries (step i r).run := by
  unfold Run.step at hgoes ⊢
  split at hgoes
  · rcases hgoes with hgoes | ⟨item, hgoes⟩ <;> cases hgoes
  · rename_i hstage
    have hentries : ∀ after : Run, entriesAfter entries r after = entries := by
      intro after
      simp only [entriesAfter, hstage]
    have hactive : StepKept limit r entries { r with stage := .active } := by
      refine ⟨?_, ?_⟩ <;> rw [hentries]
      · exact ⟨by simp, h.length, h.stack, h.guards, h.incoming⟩
      · simp only [stepsAhead, hstage, reduceCtorEq, if_true, if_false]
        omega
    rw [takeAnswer] at hgoes ⊢
    split at hgoes
    · exact hactive
    · split at hgoes
      · rcases hgoes with hgoes | ⟨item, hgoes⟩ <;> cases hgoes
      · exact hactive
  · rename_i hended hwaiting
    have hstage : r.stage = .active := by
      have := h.begun
      revert this hended hwaiting
      cases r.stage <;> simp
    split at hgoes
    · rcases hgoes with hgoes | ⟨item, hgoes⟩ <;> cases hgoes
    · rcases hgoes with hgoes | ⟨item, hgoes⟩ <;> cases hgoes
    · rename_i s left hfetch
      exact (h.fetched hfetch).execute hfetch hstage hlimit hgoes

/-! ### Runs -/

/-- A run that begins has taken no step and keeps the invariant. -/
theorem kept_start (limit : Nat) (i : Interpreter) (source : Source)
    {ss : Listing Stmt ParseError} (h : LoopsApartAll ss.items) :
    Kept limit (start i (ofListing source ss)).2 [] :=
  ⟨by simp [start, ofListing], rfl, .nil, rfl, h⟩

theorem stepsAhead_start (limit : Nat) (i : Interpreter) (source : Source)
    (ss : Listing Stmt ParseError) :
    stepsAhead limit (start i (ofListing source ss)).2 [] = stepBoundAll limit ss.items := by
  simp [stepsAhead, start, ofListing, stepsLeftAll]

/-- An answer of the host changes nothing but the request. -/
theorem eq_asking_of_give {r r' : Run} {request : Request} {value : HostValue}
    (h : r.give request value = .ok r') : ∃ filled, r' = r.asking filled := by
  unfold give at h
  cases hgive : request.give value with
  | error e =>
    rw [hgive] at h
    cases h
  | ok filled =>
    rw [hgive] at h
    exact ⟨filled, (Except.ok.inj h).symm⟩

theorem Kept.asking (h : Kept limit r entries) (request : Option Request) :
    Kept limit (r.asking request) entries :=
  ⟨h.begun, h.length, h.stack, h.guards, h.incoming⟩

/-- Every state in the course of a run keeps the invariant, and the steps that were taken and those
ahead are no more than the bound. -/
theorem Course.kept {i₀ : Interpreter} {source : Source} {ss : Listing Stmt ParseError}
    (hapart : LoopsApartAll ss.items) {steps : Nat}
    (h : Course i₀ (ofListing source ss) steps i r entries) :
    Kept i₀.limit r entries ∧ i.limit = i₀.limit ∧
      steps + stepsAhead i₀.limit r entries ≤ stepBoundAll i₀.limit ss.items := by
  induction h with
  | start =>
    refine ⟨kept_start i₀.limit i₀ source hapart, rfl, ?_⟩
    rw [stepsAhead_start, Nat.zero_add]
  | @step steps i r entries _ hgoes ih =>
    obtain ⟨hkept, hlimit, hsteps⟩ := ih
    obtain ⟨hafter, hless⟩ := hkept.step hlimit hgoes
    exact ⟨hafter, (limit_step i r).trans hlimit, by omega⟩
  | give _ _ hgive ih =>
    obtain ⟨hkept, hlimit, hsteps⟩ := ih
    obtain ⟨filled, rfl⟩ := eq_asking_of_give hgive
    exact ⟨hkept.asking filled, hlimit, hsteps⟩

/-- A run that may take more steps than it can take comes to an item or to its end, and an item
leaves no more steps ahead. -/
theorem Kept.advance_ends {budget : Nat} (h : Kept limit r entries) (hlimit : i.limit = limit)
    (hbudget : stepsAhead limit r entries < budget) :
    (advance budget i r).outcome ≠ .quiet ∧ (advance budget i r).interpreter.limit = limit ∧
      ∀ item, (advance budget i r).outcome = .item item → ∃ counts,
        Kept limit (advance budget i r).run counts ∧
          stepsAhead limit (advance budget i r).run counts ≤ stepsAhead limit r entries := by
  induction budget generalizing i r entries with
  | zero => cases hbudget
  | succ budget ih =>
    have hnext : (Run.step i r).GoesOn → _ := h.step hlimit
    have hafter := (limit_step i r).trans hlimit
    rw [advance]
    rcases hstep : Run.step i r with ⟨outcome, i', r'⟩
    rw [hstep] at hnext hafter
    cases outcome with
    | quiet =>
      obtain ⟨hkept, hless⟩ := hnext (.inl rfl)
      obtain ⟨houtcome, hlast, hitem⟩ := ih hkept hafter (by omega)
      refine ⟨houtcome, hlast, fun item heq => ?_⟩
      obtain ⟨counts, hcounts, hle⟩ := hitem item heq
      exact ⟨counts, hcounts, Nat.le_trans hle (Nat.le_of_lt hless)⟩
    | item item =>
      obtain ⟨hkept, hless⟩ := hnext (.inr ⟨item, rfl⟩)
      exact ⟨by simp, hafter, fun _ _ => ⟨_, hkept, Nat.le_of_lt hless⟩⟩
    | done | failed => exact ⟨by simp, hafter, by simp⟩

/-- A run that is played with more steps than it can take comes to an end; if there are as many
answers, it is not for want of one. -/
theorem Kept.playSteps_ends {budget : Nat} (h : Kept limit r entries) (hlimit : i.limit = limit)
    (hbudget : stepsAhead limit r entries < budget) (answers : List HostValue) :
    (playSteps budget i r answers).ending ≠ .interrupted ∧
      (stepsAhead limit r entries ≤ answers.length →
        ∀ request, (playSteps budget i r answers).ending ≠ .unanswered request) := by
  induction budget generalizing i r entries answers with
  | zero => cases hbudget
  | succ budget ih =>
    -- A step that goes on leaves a run with fewer steps ahead, to which the induction applies.
    have hnext : (Run.step i r).GoesOn → ∀ request : Option Request, ∃ counts,
        Kept limit ((Run.step i r).run.asking request) counts ∧
          stepsAhead limit ((Run.step i r).run.asking request) counts
            < stepsAhead limit r entries := by
      intro hgoes request
      obtain ⟨hafter, hless⟩ := h.step hlimit hgoes
      exact ⟨_, hafter.asking request, hless⟩
    have hafter := (limit_step i r).trans hlimit
    rw [playSteps]
    split
    · rename_i j left hstep
      rw [hstep] at hnext hafter
      obtain ⟨counts, hkept, hless⟩ := hnext (.inl rfl) left.request
      obtain ⟨hends, hanswered⟩ := ih hkept hafter (by omega) answers
      exact ⟨hends, fun henough => hanswered (by omega)⟩
    · exact ⟨by simp, by simp⟩
    · exact ⟨by simp, by simp⟩
    · rename_i v j left hstep
      rw [hstep] at hnext hafter
      obtain ⟨counts, hkept, hless⟩ := hnext (.inr ⟨_, rfl⟩) left.request
      obtain ⟨hends, hanswered⟩ := ih hkept hafter (by omega) answers
      exact ⟨hends, fun henough => hanswered (by omega)⟩
    · rename_i request j left hstep
      rw [hstep] at hnext hafter
      cases answers with
      | nil =>
        obtain ⟨counts, -, hless⟩ := hnext (.inr ⟨_, rfl⟩) left.request
        exact ⟨by simp, fun henough =>
          absurd (Nat.lt_of_lt_of_le hless henough) (Nat.not_lt_zero _)⟩
      | cons answer rest =>
        dsimp only
        split
        · exact ⟨by simp, by simp⟩
        · rename_i hgive
          obtain ⟨filled, rfl⟩ := eq_asking_of_give hgive
          obtain ⟨counts, hkept, hless⟩ := hnext (.inr ⟨_, rfl⟩) filled
          obtain ⟨hends, hanswered⟩ := ih hkept hafter (by omega) rest
          exact ⟨hends, fun henough => hanswered (by simp at henough; omega)⟩

end Run

open Run

/-- In a program in which no loop is on the line of a loop around it, every course of a run takes at
most a bounded number of steps, and each time a loop is begun its body is entered at most as often
as the limit allows. So a run whose host has enough answers completes or fails. -/
theorem course_bounded_of_loopsApart (p : Program) (h : LoopsApartAll p.statements)
    (i : Interpreter) :
    (∀ steps j r entries, Course i (Run.ofProgram p) steps j r entries →
      steps ≤ stepBoundAll i.limit p.statements ∧ ∀ count ∈ entries, count ≤ i.limit) ∧
    ∀ answers : List HostValue, stepBoundAll i.limit p.statements ≤ answers.length →
      ∀ budget, stepBoundAll i.limit p.statements < budget →
        ((Run.ofProgram p).play budget i answers).ending = .completed ∨
          ∃ e, ((Run.ofProgram p).play budget i answers).ending = .failed e := by
  have happart : LoopsApartAll (Listing.items ⟨p.statements, (none : Option ParseError)⟩) := h
  constructor
  · intro steps j r entries hcourse
    obtain ⟨hkept, -, hsteps⟩ := hcourse.kept happart
    exact ⟨Nat.le_trans (Nat.le_add_right _ _) hsteps, hkept.entries_le⟩
  · intro answers henough budget hbudget
    have hahead : stepsAhead i.limit (Run.start i (Run.ofProgram p)).2 [] = _ :=
      stepsAhead_start i.limit i p.source ⟨p.statements, none⟩
    obtain ⟨hends, hanswered⟩ := (kept_start i.limit i p.source happart).playSteps_ends
      (i := (Run.start i (Run.ofProgram p)).1) rfl (hahead.trans_lt hbudget) answers
    have hplay : (Run.ofProgram p).play budget i answers = playSteps budget
      (Run.start i (Run.ofProgram p)).1 (Run.start i (Run.ofProgram p)).2 answers := rfl
    rw [hplay]
    cases hending : (playSteps budget (Run.start i (Run.ofProgram p)).1
        (Run.start i (Run.ofProgram p)).2 answers).ending with
    | completed => exact .inl rfl
    | failed e => exact .inr ⟨e, rfl⟩
    | unanswered request => exact absurd hending (hanswered (hahead.trans_le henough) request)
    | interrupted => exact absurd hending hends

/-- A loop without end on the first line around a loop that ends at once, on a given line. -/
def loopInLoop (line : Int) : Program :=
  ⟨[.loop (.boolean true (.point 1 7))
    (.block [.loop (.boolean false (.point line 9)) (.block [] (.point 3 1)) (.point line 3)]
      (.point 2 1)) (.point 1 1)], .empty⟩

/-- A program with any two lines for its loops is loaded from its stored form. -/
theorem load_loopInLoop (line : Int) (digits : DigitLimit) :
    Program.load (loopInLoop line).toJson digits
      = .ok (.program (loopInLoop line).statements .empty, loopInLoop line) := by
  refine Program.load_toJson ⟨rfl, ?_⟩
  have hinner : Stmt.Storable (.loop (.boolean false (.point line 9)) (.block [] (.point 3 1))
      (.point line 3)) := .loop .boolean (.block (by simp))
  intro s hs
  obtain rfl := List.mem_singleton.mp hs
  exact .loop .boolean (.block (by simpa using hinner))

/-- With the loops on different lines a run ends, and neither loop is entered more than twice. -/
theorem course_bounded_loopInLoop :
    (∃ root, Program.load (loopInLoop 2).toJson .standard = .ok (root, loopInLoop 2)) ∧
      LoopsApartAll (loopInLoop 2).statements ∧
      ∀ steps j r entries, Course (.fresh 2 0) (Run.ofProgram (loopInLoop 2)) steps j r entries →
        steps ≤ 15 ∧ ∀ count ∈ entries, count ≤ 2 := by
  have hapart : LoopsApartAll (loopInLoop 2).statements := by
    simp [loopInLoop, LoopsApartAll, LoopsApart, loopLines, loopLinesAll, Span.point]
  exact ⟨⟨_, load_loopInLoop 2 _⟩, hapart,
    (course_bounded_of_loopsApart (loopInLoop 2) hapart (.fresh 2 0)).1⟩

/-- With the loops on one line a run never ends: the inner loop ends in each iteration and forgets
the guard of the outer one. -/
theorem play_sameLine_interrupted :
    (∃ root, Program.load (loopInLoop 1).toJson .standard = .ok (root, loopInLoop 1)) ∧
      ∀ budget, ((Run.ofProgram (loopInLoop 1)).play budget (.fresh 2 0) []).ending
        = .interrupted := by
  refine ⟨⟨_, load_loopInLoop 1 _⟩, fun budget => ?_⟩
  let started := (Run.start (.fresh 2 0) (Run.ofProgram (loopInLoop 1))).1
  let entered := (Run.step started (Run.start (.fresh 2 0) (Run.ofProgram (loopInLoop 1))).2).run
  have hcycle : ∀ budget, playSteps (budget + 3) started entered []
      = playSteps budget started entered [] := fun _ => rfl
  have hnever : ∀ budget, (playSteps budget started entered []).ending = .interrupted := by
    intro budget
    induction budget using Nat.strongRecOn with
    | ind budget ih =>
      match budget with
      | 0 | 1 | 2 => rfl
      | budget + 3 =>
        rw [hcycle]
        exact ih budget (by omega)
  cases budget with
  | zero => rfl
  | succ budget => exact hnever budget

end DialogScript
