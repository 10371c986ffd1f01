import DialogScript.Proofs.Running.Requests

/-!
# What the trace holds

All runs of a dialog write to one file. A run that begins opens it if it is not open, and whichever
run ends first closes it for the others. So from level 1 on the file has a line for every item that
is handed out while it is open, in the order in which the items are handed out, and no line for any
other; a line that was written stays. It lacks nothing exactly when no item is handed out between
the end of a run and the beginning of the next one (`trace_of_heard`); a dialog of two runs of which
one ends before the other loses the items of the other (`trace_lacks_item`).
-/

namespace DialogScript

/-- A line of a trace reports an item. -/
def TraceEvent.Reports (e : TraceEvent) : Item → Prop
  | .value v => ∃ line, e = .output line v
  | .request q => e = .request q.span.line q.name q.type

theorem TraceEvent.Reports.level {e : TraceEvent} {item : Item} (h : e.Reports item) :
    e.level = 1 := by
  cases item with
  | value v =>
    obtain ⟨line, rfl⟩ := h
    rfl
  | request q =>
    obtain rfl : e = _ := h
    rfl

namespace Trace

/-! ### Marks -/

/-- What the file of a trace takes notice of. -/
inductive Mark where
  /-- A run begins. -/
  | begins
  /-- A run hands out an item. -/
  | hands (item : Item)
  /-- A run that has begun ends. -/
  | ends

/-- The item that is handed out. -/
def Mark.item? : Mark → Option Item
  | .hands item => some item
  | _ => none

/-- Whether the file is open after some marks. -/
def openAfter (isOpen : Bool) : List Mark → Bool
  | [] => isOpen
  | .begins :: rest => openAfter true rest
  | .hands _ :: rest => openAfter isOpen rest
  | .ends :: rest => openAfter false rest

/-- The items that are handed out while the file is open. -/
def heard (isOpen : Bool) : List Mark → List Item
  | [] => []
  | .begins :: rest => heard true rest
  | .hands item :: rest => if isOpen then item :: heard isOpen rest else heard isOpen rest
  | .ends :: rest => heard false rest

/-- Whether the file is open whenever an item is handed out. -/
def hearsAll (isOpen : Bool) : List Mark → Bool
  | [] => true
  | .begins :: rest => hearsAll true rest
  | .hands _ :: rest => isOpen && hearsAll isOpen rest
  | .ends :: rest => hearsAll false rest

variable {marks more : List Mark} {t u v : Trace}

private theorem openAfter_append (isOpen : Bool) (marks more : List Mark) :
    openAfter isOpen (marks ++ more) = openAfter (openAfter isOpen marks) more := by
  induction marks generalizing isOpen with
  | nil => rfl
  | cons mark rest ih => cases mark <;> exact ih _

private theorem heard_append (isOpen : Bool) (marks more : List Mark) :
    heard isOpen (marks ++ more) = heard isOpen marks ++ heard (openAfter isOpen marks) more := by
  induction marks generalizing isOpen with
  | nil => rfl
  | cons mark rest ih =>
    cases mark with
    | begins | ends => exact ih _
    | hands item =>
      cases isOpen with
      | true => exact congrArg (item :: ·) (ih true)
      | false => exact ih false

private theorem heard_sublist (isOpen : Bool) (marks : List Mark) :
    (heard isOpen marks).Sublist (marks.filterMap Mark.item?) := by
  induction marks generalizing isOpen with
  | nil => exact .slnil
  | cons mark rest ih =>
    cases mark with
    | begins | ends => exact ih _
    | hands item =>
      cases isOpen with
      | true => exact (ih true).cons_cons item
      | false => exact (ih false).cons item

private theorem heard_eq_iff (isOpen : Bool) (marks : List Mark) :
    heard isOpen marks = marks.filterMap Mark.item? ↔ hearsAll isOpen marks = true := by
  induction marks generalizing isOpen with
  | nil => exact iff_of_true rfl rfl
  | cons mark rest ih =>
    cases mark with
    | begins | ends => exact ih _
    | hands item =>
      cases isOpen with
      | true => simpa [heard, hearsAll, Mark.item?] using ih true
      | false =>
        refine iff_of_false (fun heq => ?_) (by simp [hearsAll])
        -- Fewer items are heard than handed out.
        have hle := (heard_sublist false rest).length_le
        have hlength : (heard false rest).length = (rest.filterMap Mark.item?).length + 1 := by
          simpa [heard, Mark.item?] using congrArg List.length heq
        omega

/-! ### Lines -/

/-- The events in the file. -/
def entries (t : Trace) : List TraceEvent := t.written.getD []

/-- The lines of the file that report outputs and requests. -/
def itemLines (events : List TraceEvent) : List TraceEvent := events.filter TraceEvent.isOfItem

/-- A trace that reports items; there is nothing in the file before the first run. -/
structure Ready (t : Trace) : Prop where
  level : 1 ≤ t.level
  unopened : t.runs = 0 → t.isOpen = false ∧ t.entries = []

/-- What becomes of a trace by some marks: it has lines for what is heard behind what it had. -/
structure Hears (t u : Trace) (marks : List Mark) : Prop where
  ready : u.Ready
  isOpen : u.isOpen = openAfter t.isOpen marks
  lines : ∃ events, u.entries = t.entries ++ events ∧
    List.Forall₂ TraceEvent.Reports (itemLines events) (heard t.isOpen marks)

theorem Hears.trans (h : Hears t u marks) (h' : Hears u v more) : Hears t v (marks ++ more) := by
  obtain ⟨events, hevents, hlines⟩ := h.lines
  obtain ⟨events', hevents', hlines'⟩ := h'.lines
  refine ⟨h'.ready, ?_, events ++ events', ?_, ?_⟩
  · rw [h'.isOpen, h.isOpen, openAfter_append]
  · rw [hevents', hevents, List.append_assoc]
  · rw [itemLines, List.filter_append, heard_append, ← h.isOpen]
    exact List.rel_append hlines hlines'

namespace Ready

theorem refl (h : t.Ready) : Hears t t [] :=
  ⟨h, rfl, [], (List.append_nil _).symm, .nil⟩

theorem start (h : t.Ready) : Hears t t.start [.begins] := by
  have hlevel : 0 < t.level := Int.lt_of_lt_of_le Int.zero_lt_one h.level
  cases hopen : t.isOpen with
  | true =>
    have hstart : t.start = { t with runs := t.runs + 1 } := by simp [Trace.start, hopen]
    rw [hstart]
    exact ⟨⟨h.level, fun hruns => absurd hruns (Nat.succ_ne_zero _)⟩, hopen, [],
      (List.append_nil _).symm, .nil⟩
  | false =>
    -- What is opened anew before the first run has nothing in it.
    have hentries : t.start.entries = t.entries := by
      by_cases hruns : t.runs = 0
      · rw [(h.unopened hruns).2]
        simp [Trace.start, hlevel, hopen, hruns, entries]
      · simp [Trace.start, hlevel, hopen, hruns, entries]
    refine ⟨⟨?_, fun hruns => ?_⟩, ?_, [], ?_, .nil⟩
    · simpa [Trace.start, hlevel, hopen] using h.level
    · simp [Trace.start, hlevel, hopen] at hruns
    · simp [Trace.start, hlevel, hopen, openAfter]
    · rw [hentries, List.append_nil]

theorem stop (h : t.Ready) : Hears t t.stop [.ends] :=
  ⟨⟨h.level, fun hruns => ⟨rfl, (h.unopened hruns).2⟩⟩, rfl, [], (List.append_nil _).symm, .nil⟩

/-- Details are on no line of an item. -/
theorem note_details (h : t.Ready) {events : List TraceEvent}
    (hevents : ∀ e ∈ events, e.isOfItem = false) : Hears t (events.foldl note t) [] := by
  induction events generalizing t with
  | nil => exact h.refl
  | cons e rest ih =>
    obtain ⟨he, hrest⟩ := List.forall_mem_cons.mp hevents
    have hnote : Hears t (t.note e) [] := by
      unfold note
      split
      · rename_i hwritten
        refine ⟨⟨h.level, fun hruns => ?_⟩, rfl, [e], rfl, ?_⟩
        · exact absurd hwritten.2 (by simp [(h.unopened hruns).1])
        · simp [itemLines, he, heard]
      · exact h.refl
    exact hnote.trans (ih hnote.ready hrest)

/-- An item has a line if the file is open. -/
theorem note_item (h : t.Ready) {e : TraceEvent} {item : Item} (he : e.Reports item) :
    Hears t (t.note e) [.hands item] := by
  have hlevel : e.level ≤ t.level := he.level.trans_le h.level
  cases hopen : t.isOpen with
  | true =>
    have hnote : t.note e = { t with written := some (t.entries ++ [e]) } :=
      if_pos ⟨hlevel, hopen⟩
    rw [hnote]
    refine ⟨⟨h.level, fun hruns => ?_⟩, rfl, [e], rfl, ?_⟩
    · exact absurd hopen (by simp [(h.unopened hruns).1])
    · simp [itemLines, TraceEvent.isOfItem, he.level, heard, hopen, he]
  | false =>
    have hnote : t.note e = t := by simp [note, hopen]
    rw [hnote]
    exact ⟨h, rfl, [], (List.append_nil _).symm, by simp [itemLines, heard, hopen]⟩

end Ready

end Trace

open Trace

/-! ### Runs -/

/-- The marks of what a step of a run comes to. -/
def Outcome.marks (outcome : Outcome) : List Mark :=
  match outcome.item? with
  | some handed => [.hands handed]
  | none => []

/-- The marks of a run that is taken further and has a reply; `stage` is how far it had come. -/
def RunStage.marks (stage : RunStage) (reply : DialogReply) : List Mark :=
  (if stage = .fresh then [.begins] else []) ++
    match reply with
    | .item given => [.hands given]
    | .ended => if stage = .ended then [] else [.ends]
    | .failed _ _ => if stage = .ended then [] else [.ends]
    | _ => []

namespace Run

variable {i : Interpreter} {r : Run}

/-- A step of a run leaves on the trace what it comes to, and does not end a run by itself. -/
structure Traced (i : Interpreter) (r : Run) (s : RunStep) : Prop where
  hears : Hears i.trace s.interpreter.trace s.outcome.marks
  going : r.stage.isGoing = true → s.run.stage.isGoing = true

private theorem step_traced (h : i.trace.Ready) (r : Run) : Traced i r (step i r) := by
  have htaken := step_taken i r
  generalize step i r = s at htaken ⊢
  cases htaken with
  | value hfetch =>
    obtain ⟨-, -, hstage⟩ := fetch_keeps hfetch
    exact ⟨h.note_item ⟨_, rfl⟩, fun hgoing => hstage ▸ hgoing⟩
  | request hfetch hform => exact ⟨h.note_item rfl, fun _ => rfl⟩
  | silent hsilent =>
    obtain ⟨events, hevents, htrace⟩ := hsilent.trace
    have hmarks : s.outcome.marks = [] := by rw [Outcome.marks, hsilent.outcome]
    refine ⟨?_, hsilent.going⟩
    rw [htrace, hmarks]
    exact h.note_details hevents

private theorem advance_traced (budget : Nat) (h : i.trace.Ready) (r : Run) :
    Traced i r (advance budget i r) := by
  induction budget generalizing i r with
  | zero => exact ⟨h.refl, id⟩
  | succ budget ih =>
    have hfirst := step_traced h r
    rw [advance]
    rcases hstep : step i r with ⟨outcome, i', r'⟩
    rw [hstep] at hfirst
    cases outcome with
    | quiet =>
      obtain ⟨hhears, hgoing⟩ := ih hfirst.hears.ready r'
      exact ⟨hfirst.hears.trans hhears, hgoing ∘ hfirst.going⟩
    | item | done | failed => exact hfirst

private theorem close_hears (h : i.trace.Ready) (r : Run) :
    Hears i.trace (close i r).1.trace (if r.stage.isGoing then [.ends] else []) := by
  unfold close
  split
  · rename_i hstage
    simpa [hstage, RunStage.isGoing] using h.refl
  · rename_i hstage
    simpa [hstage, RunStage.isGoing] using h.refl
  · rename_i hended hfresh
    have hgoing : r.stage.isGoing = true := by
      cases hstage : r.stage with
      | fresh => exact absurd hstage hfresh
      | ended => exact absurd hstage hended
      | active | waiting => rfl
    simpa [hgoing] using h.stop

private theorem next_hears_of_going (budget : Nat) (h : i.trace.Ready)
    (hgoing : r.stage.isGoing = true)
    (source : Source) :
    Hears i.trace (next budget i r).interpreter.trace
      (RunStage.marks .active ((next budget i r).outcome.reply source)) := by
  have hstart : start i r = (i, r) := by
    unfold start
    split
    · rename_i hstage
      simp [hstage, RunStage.isGoing] at hgoing
    · rfl
  obtain ⟨hhears, hstays⟩ := advance_traced budget h r
  rw [next, hstart]
  dsimp only
  rcases hadvance : advance budget i r with ⟨outcome, i', r'⟩
  rw [hadvance] at hhears hstays
  cases outcome with
  | quiet | item => exact hhears
  | done | failed =>
    have hclose := close_hears hhears.ready r'
    rw [if_pos (hstays hgoing)] at hclose
    exact hhears.trans hclose

/-- A run that is taken further leaves on the trace its beginning, what it is taken to and its
end. -/
theorem next_hears (budget : Nat) (h : i.trace.Ready) (r : Run) (source : Source) :
    Hears i.trace (next budget i r).interpreter.trace
      (r.stage.marks ((next budget i r).outcome.reply source)) := by
  cases hstage : r.stage with
  | active => exact next_hears_of_going budget h (by rw [hstage]; rfl) source
  | waiting => exact next_hears_of_going budget h (by rw [hstage]; rfl) source
  | fresh =>
    -- The run begins, and is then taken further like one that has begun.
    have hnext : next budget i r
        = next budget { i with trace := i.trace.start } { r with stage := .active } := by
      simp only [next, start, hstage]
    have hmarks : ∀ reply, RunStage.fresh.marks reply = [.begins] ++ RunStage.active.marks reply :=
      fun reply => by cases reply <;> rfl
    rw [hnext, hmarks]
    exact h.start.trans (next_hears_of_going (i := { i with trace := i.trace.start })
      (r := { r with stage := .active }) budget h.start.ready rfl source)
  | ended =>
    -- Nothing is done, and the file that others may have opened again is not closed.
    cases budget with
    | zero => simpa [next, start, hstage, advance, Outcome.reply, RunStage.marks] using h.refl
    | succ budget =>
      simpa [next, start, hstage, advance, step, close, Outcome.reply, RunStage.marks] using h.refl

end Run

/-! ### Dialogs -/

/-- The item of a reply. -/
def DialogReply.item? : DialogReply → Option Item
  | .item handed => some handed
  | _ => none

namespace Dialog

variable {d : Dialog}

/-- The mark of ending the run with a name. -/
def closingMarks (d : Dialog) (name : String) : List Mark :=
  if (d.stage? name).any RunStage.isGoing then [.ends] else []

/-- The marks of a step that has a reply. -/
def marks (d : Dialog) : DialogStep → DialogReply → List Mark
  | .start name _, _ => d.closingMarks name
  | .next name, reply => (d.stage? name).elim [] fun stage => stage.marks reply
  | .give _ _, _ => []
  | .close name, _ => d.closingMarks name

/-- The marks of steps in order. -/
def allMarks (budget : Nat) (d : Dialog) : List DialogStep → List Mark
  | [] => []
  | st :: rest =>
    d.marks st (d.perform budget st).1 ++ (d.perform budget st).2.allMarks budget rest

private theorem closeRun_hears (h : d.interpreter.trace.Ready) (name : String) :
    Hears d.interpreter.trace (d.closeRun name).interpreter.trace (d.closingMarks name) := by
  unfold closeRun
  split
  · rename_i hrun
    simpa [closingMarks, stage?, hrun] using h.refl
  · rename_i r hrun
    have hmarks : d.closingMarks name = if r.stage.isGoing then [.ends] else [] := by
      rw [closingMarks, stage?, hrun]
      rfl
    rw [hmarks]
    exact Run.close_hears h r

/-- A step leaves its marks on the trace. -/
theorem perform_hears (budget : Nat) (h : d.interpreter.trace.Ready) (st : DialogStep) :
    Hears d.interpreter.trace (d.perform budget st).2.interpreter.trace
      (d.marks st (d.perform budget st).1) := by
  cases st with
  | start name script => exact closeRun_hears h name
  | close name => exact closeRun_hears h name
  | next name =>
    cases hrun : d.run? name with
    | none =>
      rw [perform_next_of_none hrun, marks, stage?, hrun]
      exact h.refl
    | some r =>
      rw [perform_next hrun, marks, stage?, hrun]
      exact Run.next_hears budget h r _
  | give name value =>
    rcases perform_give_cases budget d name value with
      hnone | ⟨_, _, hfailed⟩ | ⟨_, _, _, -, -, -, hgiven⟩
    · rw [hnone]
      exact h.refl
    · rw [hfailed]
      exact h.refl
    · rw [hgiven]
      exact h.refl

/-- Steps leave their marks on the trace. -/
theorem performAll_hears (budget : Nat) (h : d.interpreter.trace.Ready) (steps : List DialogStep) :
    Hears d.interpreter.trace (d.performAll budget steps).2.interpreter.trace
      (d.allMarks budget steps) := by
  induction steps generalizing d with
  | nil => exact h.refl
  | cons st rest ih =>
    have hfirst := perform_hears budget h st
    exact hfirst.trans (ih hfirst.ready)

/-- The items of the marks of a step are those of its reply. -/
theorem items_marks (budget : Nat) (d : Dialog) (st : DialogStep) :
    (d.marks st (d.perform budget st).1).filterMap Mark.item?
      = (d.perform budget st).1.item?.toList := by
  have hclosing : ∀ name, (d.closingMarks name).filterMap Mark.item? = [] := by
    intro name
    unfold closingMarks
    split <;> rfl
  cases st with
  | start name script => exact hclosing name
  | close name => exact hclosing name
  | next name =>
    rw [marks]
    cases hstage : d.stage? name with
    | none =>
      have hrun : d.run? name = none := by simpa [stage?] using hstage
      rw [perform_next_of_none hrun]
      rfl
    | some stage =>
      have hitems : ∀ reply, (stage.marks reply).filterMap Mark.item?
          = (DialogReply.item? reply).toList := by
        intro reply
        cases stage <;> cases reply <;> rfl
      exact hitems _
  | give name value =>
    rcases perform_give_cases budget d name value with
      hnone | ⟨_, _, hfailed⟩ | ⟨_, _, _, -, -, -, hgiven⟩
    · rw [hnone]
      rfl
    · rw [hfailed]
      rfl
    · rw [hgiven]
      rfl

private theorem items_allMarks (budget : Nat) (d : Dialog) (steps : List DialogStep) :
    (d.allMarks budget steps).filterMap Mark.item?
      = (d.performAll budget steps).1.filterMap DialogReply.item? := by
  induction steps generalizing d with
  | nil => rfl
  | cons st rest ih =>
    rw [allMarks, performAll_cons, List.filterMap_append, items_marks, ih, List.filterMap_cons]
    cases (d.perform budget st).1.item? <;> rfl

end Dialog

open Dialog

/-- What the trace of a dialog holds, whatever a host does with the dialog: one line for each item
that was handed out while the file was open, in order, and for no other. So no item is lacking
exactly if the file was open whenever one was handed out, that is, if no item was handed out between
the end of a run and the beginning of another. Nothing that was written is discarded by what is done
later. -/
theorem trace_of_heard (limit : Nat) {level : Int} (hlevel : 1 ≤ level) (digits : DigitLimit)
    (budget : Nat) (steps : List DialogStep) :
    let d := ofInterpreter (.fresh limit level) digits
    let written := fun steps => (d.performAll budget steps).2.interpreter.trace.entries
    let items := (d.performAll budget steps).1.filterMap DialogReply.item?
    let marks := d.allMarks budget steps
    List.Forall₂ TraceEvent.Reports (itemLines (written steps)) (heard false marks) ∧
      (heard false marks).Sublist items ∧
      (List.Forall₂ TraceEvent.Reports (itemLines (written steps)) items
        ↔ hearsAll false marks = true) ∧
      ∀ more, written steps <+: written (steps ++ more) := by
  intro d written items marks
  have hready : d.interpreter.trace.Ready := ⟨hlevel, fun _ => ⟨rfl, rfl⟩⟩
  have hhears := performAll_hears budget hready steps
  obtain ⟨events, hevents, hlines⟩ := hhears.lines
  have hwritten : written steps = events := hevents.trans (List.nil_append _)
  have hitems : marks.filterMap Mark.item? = items := items_allMarks budget d steps
  have hheard : List.Forall₂ TraceEvent.Reports (itemLines (written steps)) (heard false marks) :=
    hwritten ▸ hlines
  have hsublist : (heard false marks).Sublist items := hitems ▸ heard_sublist false marks
  refine ⟨hheard, hsublist, ?_, fun more => ?_⟩
  · -- As many lines as items are there only if no item went unheard.
    rw [← heard_eq_iff, hitems]
    refine ⟨fun hall => ?_, fun heq => heq ▸ hheard⟩
    exact hsublist.eq_of_length (hheard.length_eq.symm.trans hall.length_eq)
  · obtain ⟨later, hlater, -⟩ := (performAll_hears budget hhears.ready more).lines
    refine ⟨later, ?_⟩
    simp only [written, performAll_append]
    exact hlater.symm

/-- A run that ends before another one begins: the file is opened again for the second, and nothing
is lacking. -/
def successiveSteps : List DialogStep :=
  [.start "first" "<< 1", .start "second" ">> x", .next "first", .next "first", .next "second"]

theorem trace_of_heard_successive :
    let d := ofInterpreter (.fresh 100 1) .standard
    let written := fun steps => (d.performAll 9 steps).2.interpreter.trace.entries
    List.Forall₂ TraceEvent.Reports (itemLines (written successiveSteps))
        [.value (.integer 1), .request (.fresh "x" .any ⟨1, 1, 5, by decide⟩)] ∧
      written successiveSteps <+: written (successiveSteps ++ [.close "second"]) := by
  intro d written
  have hdigits : d.digits = .standard := rfl
  have hfirst : tokensOf "<< 1"
      = ⟨[⟨.sign .output, "<<", 1, 1, 3⟩, ⟨.integer, "1", 1, 4, 5⟩, ⟨.lineEnd, "\n", 1, 5, 6⟩,
        ⟨.sourceEnd, "", 1, 5, 6⟩], none⟩ := by decide +kernel
  have hsecond : tokensOf ">> x"
      = ⟨[⟨.sign .input, ">>", 1, 1, 3⟩, ⟨.name, "x", 1, 4, 5⟩, ⟨.lineEnd, "\n", 1, 5, 6⟩,
        ⟨.sourceEnd, "", 1, 5, 6⟩], none⟩ := by decide +kernel
  have hfirstParsed : parseText "<< 1" .standard = ⟨_, none⟩ :=
    parseText_of_grammar hfirst (.statements
      (.cons (.output rfl (.whole (.shortInteger rfl (by decide) (by decide))) rfl) .nil) rfl)
  have hsecondParsed : parseText ">> x" .standard = ⟨_, none⟩ :=
    parseText_of_grammar hsecond (.statements (.cons (.input rfl rfl rfl) .nil) rfl)
  have hheard : hearsAll false (d.allMarks 9 successiveSteps) = true := by
    simp only [successiveSteps, allMarks, perform, Run.ofText, digits_putRun, digits_closeRun,
      hdigits, hfirstParsed, hsecondParsed]
    rfl
  have hitems : (d.performAll 9 successiveSteps).1.filterMap DialogReply.item?
      = [.value (.integer 1), .request (.fresh "x" .any ⟨1, 1, 5, by decide⟩)] := by
    simp only [successiveSteps, performAll, perform, Run.ofText, digits_putRun, digits_closeRun,
      hdigits, hfirstParsed, hsecondParsed]
    rfl
  obtain ⟨-, -, hall, hprefix⟩ := @trace_of_heard 100 1 (by decide) .standard 9 successiveSteps
  exact ⟨hitems ▸ hall.mpr hheard, hprefix [.close "second"]⟩

/-- A run that ends while another is going on. -/
def overlappingSteps : List DialogStep :=
  [.start "long" "<< 1\n<< 2", .start "short" "<< 3", .next "long", .next "short", .next "short",
    .next "long"]

/-- The run that ends first closes the file for the other, whose second output is on no line. -/
theorem trace_lacks_item :
    let d := ofInterpreter (.fresh 100 1) .standard
    let last := d.performAll 9 overlappingSteps
    let items := last.1.filterMap DialogReply.item?
    items = [.value (.integer 1), .value (.integer 3), .value (.integer 2)] ∧
      last.2.interpreter.trace.entries = [.output 1 (.integer 1), .output 1 (.integer 3)] ∧
      ¬List.Forall₂ TraceEvent.Reports (itemLines last.2.interpreter.trace.entries) items := by
  intro d last items
  have hdigits : d.digits = .standard := rfl
  have hlong : tokensOf "<< 1\n<< 2"
      = ⟨[⟨.sign .output, "<<", 1, 1, 3⟩, ⟨.integer, "1", 1, 4, 5⟩, ⟨.lineEnd, "\n", 1, 5, 6⟩,
        ⟨.sign .output, "<<", 2, 1, 3⟩, ⟨.integer, "2", 2, 4, 5⟩, ⟨.lineEnd, "\n", 2, 5, 6⟩,
        ⟨.sourceEnd, "", 2, 5, 6⟩], none⟩ := by decide +kernel
  have hshort : tokensOf "<< 3"
      = ⟨[⟨.sign .output, "<<", 1, 1, 3⟩, ⟨.integer, "3", 1, 4, 5⟩, ⟨.lineEnd, "\n", 1, 5, 6⟩,
        ⟨.sourceEnd, "", 1, 5, 6⟩], none⟩ := by decide +kernel
  have hlongParsed : parseText "<< 1\n<< 2" .standard = ⟨_, none⟩ :=
    parseText_of_grammar hlong (.statements
      (.cons (.output rfl (.whole (.shortInteger rfl (by decide) (by decide))) rfl)
        (.cons (.output rfl (.whole (.shortInteger rfl (by decide) (by decide))) rfl) .nil)) rfl)
  have hshortParsed : parseText "<< 3" .standard = ⟨_, none⟩ :=
    parseText_of_grammar hshort (.statements
      (.cons (.output rfl (.whole (.shortInteger rfl (by decide) (by decide))) rfl) .nil) rfl)
  have hitems : items = [.value (.integer 1), .value (.integer 3), .value (.integer 2)] := by
    simp only [items, last, overlappingSteps, performAll, perform, Run.ofText, digits_putRun,
      digits_closeRun, hdigits, hlongParsed, hshortParsed]
    rfl
  have hentries : last.2.interpreter.trace.entries
      = [.output 1 (.integer 1), .output 1 (.integer 3)] := by
    simp only [last, overlappingSteps, performAll, perform, Run.ofText, digits_putRun,
      digits_closeRun, hdigits, hlongParsed, hshortParsed]
    rfl
  refine ⟨hitems, hentries, fun hall => ?_⟩
  have hlength := hall.length_eq
  rw [hitems, hentries] at hlength
  exact absurd hlength (by decide)

end DialogScript
