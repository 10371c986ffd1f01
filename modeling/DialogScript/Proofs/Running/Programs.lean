import DialogScript.Proofs.Lexing.LineOrder
import DialogScript.Proofs.Parsing.Errors
import DialogScript.Proofs.Running.Simulation

/-!
# Runs of parsed programs

The statements of a text that the parser accepts can be run: the body of a loop starts after the
end of the loop's own line, so no loop in it stands on that line (`runnable_of_statements`).
Hence a run of an accepted text, with any variables, any limit and any answers of the host, comes
to exactly what its statements mean (`play_eq_meaning`).
-/

namespace DialogScript

open Grammar Stmt

variable {digits : DigitLimit}

/-! ### Loops and lines -/

/-- The lines of the loops in a statement are the lines of words. -/
def LoopsAt (ts : List Token) (lines : List Int) : Prop :=
  ∀ line ∈ lines, ∃ t ∈ ts, t.kind.isLead = true ∧ t.line = line

theorem LoopsAt.within {ts us : List Token} {lines : List Int} (h : LoopsAt ts lines)
    (before after : List Token) (hus : us = before ++ ts ++ after) : LoopsAt us lines := by
  intro line hline
  obtain ⟨t, ht, hkind, rfl⟩ := h line hline
  exact ⟨t, by simp [hus, ht], hkind, rfl⟩

theorem LoopsAt.append {ts : List Token} {lines lines' : List Int} (h : LoopsAt ts lines)
    (h' : LoopsAt ts lines') : LoopsAt ts (lines ++ lines') := by
  intro line hline
  exact (List.mem_append.mp hline).elim (h line) (h' line)

theorem LoopsAt.nil (ts : List Token) : LoopsAt ts [] := List.forall_mem_nil _

/-- The loops after the end of a line are on later lines than a word on that line. -/
theorem not_mem_of_loopsAt {keyword last : Token} {ts body : List Token} {lines : List Int}
    (h : Scanned (keyword :: ts ++ last :: body)) (hkeyword : keyword.kind.isLead = true)
    (hlast : last.kind = .lineEnd) (hlines : LoopsAt body lines) : keyword.line ∉ lines := by
  intro hmem
  obtain ⟨t, ht, hkind, hline⟩ := hlines _ hmem
  obtain ⟨-, hafter, hacross⟩ := List.pairwise_append.mp h.inOrder
  have hfirst := (hacross keyword (by simp) last (by simp)).lead_lineEnd hkeyword hlast
  have hthen := ((List.pairwise_cons.mp hafter).1 t ht).lineEnd_lead hlast hkind
  omega

mutual

/-- The statement of tokens that the lexer gives can be run. -/
theorem runnable_of_statement {ts : List Token} {s : Stmt} (h : Statement digits ts s)
    (hts : Scanned ts) : Runnable s ∧ LoopsAt ts s.loopLines := by
  match h with
  | .assign _ _ _ _ => exact ⟨.assign, .nil _⟩
  | .output _ _ _ => exact ⟨.output, .nil _⟩
  | .input _ _ _ => exact ⟨.input, .nil _⟩
  | .typedInput _ _ _ _ _ _ _ => exact ⟨.input, .nil _⟩
  | .block hblock => exact runnable_of_block hblock hts
  | .loop hkeyword he hlast hbody =>
    rename_i keyword last ts body e s
    obtain ⟨hrun, hloops⟩ :=
      runnable_of_block hbody (hts.part (keyword :: ts ++ [last]) [] (by simp))
    have hkind : keyword.kind.isLead = true := by rw [hkeyword]; rfl
    have hline : keyword.extent.line = keyword.line :=
      Token.extent_line (hts.made keyword (by simp)).columns
    refine ⟨.loop hrun ?_, ?_⟩
    · -- The end of the line stands between the word `while` and every loop in the body.
      rw [hline]
      exact not_mem_of_loopsAt hts hkind hlast hloops
    · intro line hmem
      rcases List.mem_cons.mp hmem with rfl | hmem
      · exact ⟨keyword, by simp, hkind, hline.symm⟩
      · exact hloops.within (keyword :: ts ++ [last]) [] (by simp) line hmem
  | .choice hkeyword he hlast hbody hrest =>
    rename_i keyword last ts body rest e s otherwise others
    obtain ⟨hrun, hloops⟩ :=
      runnable_of_block hbody (hts.part (keyword :: ts ++ [last]) rest (by simp))
    obtain ⟨hbranches, hotherwise, hloopsRest⟩ :=
      runnable_of_elseParts hrest (hts.part (keyword :: ts ++ last :: body) [] (by simp))
    have hlines : LoopsAt (keyword :: ts ++ last :: body ++ rest)
        (loopLines (.choice (.branch e s keyword.extent) others otherwise keyword.extent)) := by
      rw [loopLines, loopLines, List.append_assoc s.loopLines]
      exact .append (hloops.within (keyword :: ts ++ [last]) rest (by simp))
        (hloopsRest.within (keyword :: ts ++ last :: body) [] (by simp))
    rcases hotherwise with rfl | hotherwise
    · exact ⟨.choiceOrNothing (.cons hrun hbranches), hlines⟩
    · exact ⟨.choice (.cons hrun hbranches) hotherwise, hlines⟩
termination_by structural h

theorem runnable_of_statements {ts : List Token} {ss : List Stmt} (h : Statements digits ts ss)
    (hts : Scanned ts) : RunnableAll ss ∧ LoopsAt ts (loopLinesAll ss) := by
  match h with
  | .nil => exact ⟨.nil, .nil _⟩
  | .cons hfirst hrest =>
    rename_i ts us s rest
    obtain ⟨hrun, hloops⟩ := runnable_of_statement hfirst (hts.part [] us (by simp))
    obtain ⟨hruns, hloopsRest⟩ := runnable_of_statements hrest (hts.part ts [] (by simp))
    refine ⟨.cons hrun hruns, ?_⟩
    rw [loopLinesAll]
    exact .append (hloops.within [] us (by simp)) (hloopsRest.within ts [] (by simp))
termination_by structural h

theorem runnable_of_block {ts : List Token} {s : Stmt} (h : Block digits ts s)
    (hts : Scanned ts) : Runnable s ∧ LoopsAt ts s.loopLines := by
  match h with
  | .indented ho hc hbody =>
    rename_i o c ts body
    obtain ⟨hruns, hloops⟩ := runnable_of_statements hbody (hts.part [o] [c] (by simp))
    exact ⟨.block hruns, hloops.within [o] [c] (by simp)⟩
termination_by structural h

theorem runnable_of_elseParts {ts : List Token} {others : List Stmt} {otherwise : Stmt}
    (h : ElseParts digits ts others otherwise) (hts : Scanned ts) :
    Branches others ∧ (otherwise = .absent ∨ Runnable otherwise) ∧
      LoopsAt ts (loopLinesAll others ++ otherwise.loopLines) := by
  match h with
  | .nothing => exact ⟨.nil, .inl rfl, .nil _⟩
  | .otherwise hkeyword hlast hbody =>
    rename_i keyword last body
    obtain ⟨hrun, hloops⟩ := runnable_of_block hbody (hts.part [keyword, last] [] (by simp))
    exact ⟨.nil, .inr hrun, hloops.within [keyword, last] [] (by simp)⟩
  | .branch hkeyword hsecond he hlast hbody hrest =>
    rename_i keyword second last ts body rest e s others
    obtain ⟨hrun, hloops⟩ :=
      runnable_of_block hbody (hts.part (keyword :: second :: ts ++ [last]) rest (by simp))
    obtain ⟨hbranches, hotherwise, hloopsRest⟩ :=
      runnable_of_elseParts hrest (hts.part (keyword :: second :: ts ++ last :: body) [] (by simp))
    refine ⟨.cons hrun hbranches, hotherwise, ?_⟩
    rw [loopLinesAll, loopLines, List.append_assoc s.loopLines]
    exact .append (hloops.within (keyword :: second :: ts ++ [last]) rest (by simp))
      (hloopsRest.within (keyword :: second :: ts ++ last :: body) [] (by simp))
termination_by structural h

end

/-! ### Texts -/

/-- The statements of a text before its first error can be run. -/
theorem runnableAll_parseText (text : String) (digits : DigitLimit) :
    RunnableAll (parseText text digits).items := by
  obtain ⟨⟨ts, rest, htokens, hts⟩, -⟩ := parseText_accounts text digits
  have hscanned := (scanned_tokensOf text).part [] rest (by simpa using htokens)
  exact (runnable_of_statements hts hscanned).1

/-- The statements of an accepted text can be run. -/
theorem runnable_of_parseText {text : String} {ss : List Stmt}
    (h : parseText text digits = ⟨ss, none⟩) : RunnableAll ss := by
  have hrunnable := runnableAll_parseText text digits
  rwa [h] at hrunnable

namespace Run

/-- A run that has begun and has statements before it, perhaps with an error behind them. -/
def expecting (r : Run) (ss : List Stmt) (fault : Option ParseError) : Run :=
  { r with incoming := ⟨ss, fault⟩ }.going [] []

/-- A run that has begun and has all statements of a program before it. -/
def reading (r : Run) (ss : List Stmt) : Run := r.expecting ss none

private theorem playSteps_eq_of_step_eq {i : Interpreter} {r r' : Run} (h : step i r = step i r')
    (budget : Nat) (answers : List HostValue) :
    playSteps budget i r answers = playSteps budget i r' answers := by
  cases budget with
  | zero => rfl
  | succ budget => rw [playSteps, playSteps, h]

/-- A statement that is fetched is executed as if it had been on the stack. -/
theorem step_expecting {s : Stmt} (hs : Runnable s) (i : Interpreter) (r : Run) (ss : List Stmt)
    (fault : Option ParseError) :
    step i (r.expecting (s :: ss) fault) = step i ((r.expecting ss fault).going [s] []) := by
  cases hs <;> rfl

/-- A run with nothing before it ends. -/
theorem playSteps_reading_nil (budget : Nat) (i : Interpreter) (r : Run)
    (request : Option Request) (answers : List HostValue) :
    playSteps (budget + 1) i ((r.reading []).asking request) answers
      = ⟨[], .completed, { i with trace := i.trace.stop }, answers⟩ := rfl

/-- The statements before a run do what they mean, one after the other. -/
theorem performs_expecting {ss : List Stmt} (h : RunnableAll ss) (limit : Nat) (i : Interpreter)
    (r : Run) (fault : Option ParseError) (answers : List HostValue) (hlimit : i.limit = limit) :
    Performs i (r.expecting ss fault) answers (meaningAll limit ss i.environment answers)
      (r.expecting [] fault) := by
  induction ss generalizing i r answers with
  | nil => exact performs_skip i (r.expecting [] fault) answers
  | cons s ss ih =>
    obtain ⟨hfirst, hrest⟩ : Runnable s ∧ RunnableAll ss := by
      cases h with
      | cons hfirst hrest => exact ⟨hfirst, hrest⟩
    have hstart := behaves_of_runnable hfirst i (r.expecting ss fault) [] [] answers hlimit
      (List.forall_mem_nil _)
    have hfetched : Performs i (r.expecting (s :: ss) fault) answers
        (s.meaning limit i.environment answers) (r.expecting ss fault) := by
      -- Only the first step differs, and it is the same with the statement on the stack.
      obtain ⟨steps, last, henv, hlast, hplay⟩ := hstart
      refine ⟨steps, last, henv, hlast, ?_⟩
      simp only [playSteps_eq_of_step_eq (step_expecting hfirst i r ss fault)]
      exact hplay
    rw [meaningAll]
    refine hfetched.andThen fun j request answers' hj => ?_
    exact ih hrest j (r.asking request) answers' (hj.trans hlimit)

/-- The statements of a program do what they mean, one after the other. -/
theorem performs_reading {ss : List Stmt} (h : RunnableAll ss) (limit : Nat) (i : Interpreter)
    (r : Run) (answers : List HostValue) (hlimit : i.limit = limit) :
    Performs i (r.reading ss) answers (meaningAll limit ss i.environment answers)
      (r.reading []) :=
  performs_expecting h limit i r none answers hlimit

end Run

/-- A run of an accepted text comes to what its statements mean, for any variables, limit and
answers: with enough steps its items, its ending, the variables and the answers that are left are
those of the meaning. -/
theorem play_eq_meaning {source : Source} {text : String} {p : Program}
    (h : parseProgram source text digits = .ok p) (i : Interpreter) (answers : List HostValue) :
    ∃ budget, ∀ more,
      let played := (Run.ofProgram p).play (budget + more) i answers
      let effect := meaningAll i.limit p.statements i.environment answers
      played.items = effect.items ∧ played.ending = effect.ending.getD .completed ∧
        played.interpreter.environment = effect.environment ∧ played.answers = effect.answers := by
  have hparsed : parseText text digits = ⟨p.statements, none⟩ := by
    unfold parseProgram at h
    obtain ⟨ss, hss, hp⟩ := bind_eq_ok.mp h
    obtain ⟨hitems, hfault⟩ := Listing.eq_of_toExcept hss
    rw [← Except.ok.inj hp, ← hitems, ← hfault]
  have hrunnable := runnable_of_parseText hparsed
  have hperforms := Run.performs_reading hrunnable i.limit { i with trace := i.trace.start }
    (Run.ofProgram p) answers rfl
  obtain ⟨steps, last, henv, -, hplay⟩ := hperforms
  dsimp only at henv hplay
  split at hplay
  · -- The run ended before the program did.
    rename_i ending hending
    refine ⟨steps, fun more => ?_⟩
    have hplayed : (Run.ofProgram p).play (steps + more) i answers = _ := hplay more
    dsimp only
    rw [hplayed, hending]
    exact ⟨rfl, rfl, henv, rfl⟩
  · -- All statements are executed; one more step notices that nothing is left.
    rename_i hending
    obtain ⟨request, hplay⟩ := hplay
    refine ⟨steps + 1, fun more => ?_⟩
    have hplayed : (Run.ofProgram p).play (steps + (1 + more)) i answers = _ := hplay (1 + more)
    dsimp only
    rw [Nat.add_assoc, hplayed, hending, Nat.add_comm 1 more, Run.playSteps_reading_nil]
    exact ⟨List.append_nil _, rfl, henv, rfl⟩

/-- The tokens of a loop in a loop. -/
def nestedLoopTokens : List Token :=
  [⟨.keyword .whileWord, "while", 1, 1, 6⟩, ⟨.name, "a", 1, 7, 8⟩, ⟨.lineEnd, "\n", 1, 8, 9⟩,
    ⟨.indent, "", 2, 1, 3⟩, ⟨.keyword .whileWord, "while", 2, 3, 8⟩, ⟨.name, "b", 2, 9, 10⟩,
    ⟨.lineEnd, "\n", 2, 10, 11⟩, ⟨.indent, "", 3, 3, 5⟩, ⟨.sign .output, "<<", 3, 5, 7⟩,
    ⟨.name, "b", 3, 8, 9⟩, ⟨.lineEnd, "\n", 3, 9, 10⟩, ⟨.dedent, "", 4, 1, 2⟩,
    ⟨.dedent, "", 4, 1, 2⟩, ⟨.sourceEnd, "", 4, 1, 2⟩]

/-- A loop in a loop, with conditions that never fail, under a limit of two iterations. -/
theorem play_eq_meaning_nested_loops :
    ∃ p, parseProgram .empty "while a\n  while b\n    << b\n" .standard = .ok p ∧
      ∃ budget, ∀ more,
        let i : Interpreter := ⟨2, [("a", .boolean true), ("b", .boolean true)], .ofLevel 0⟩
        let played := (Run.ofProgram p).play (budget + more) i []
        let effect := meaningAll i.limit p.statements i.environment []
        played.items = effect.items ∧ played.ending = effect.ending.getD .completed ∧
          played.interpreter.environment = effect.environment ∧
          played.answers = effect.answers := by
  have htokens : tokensOf "while a\n  while b\n    << b\n" = ⟨nestedLoopTokens, none⟩ := by
    decide +kernel
  have hmade : ∀ t ∈ nestedLoopTokens, t.WellMade := by
    have hall : ∀ t ∈ (tokensOf "while a\n  while b\n    << b\n").items, t.WellMade :=
      Lexer.wellMade_of_mem_tokens _
    rwa [htokens] at hall
  have hinner : Statements .standard ((nestedLoopTokens.drop 4).take 8) _ :=
    .cons (.loop rfl (.whole (.variable rfl)) rfl
      (.indented rfl rfl (.cons (.output rfl (.whole (.variable rfl)) rfl) .nil))) .nil
  have hderived : ∃ ss, Grammar.Program .standard nestedLoopTokens ss :=
    ⟨_, .statements (.cons (.loop rfl (.whole (.variable rfl)) rfl
      (.indented rfl rfl hinner)) .nil) rfl⟩
  obtain ⟨ss, hderived⟩ := hderived
  have hp : parseProgram .empty "while a\n  while b\n    << b\n" .standard = .ok ⟨ss, .empty⟩ := by
    rw [parseProgram, parseText, htokens, parseTokens_of_grammar hmade hderived]
    rfl
  exact ⟨_, hp, play_eq_meaning hp ⟨2, [("a", .boolean true), ("b", .boolean true)], .ofLevel 0⟩ []⟩

end DialogScript
