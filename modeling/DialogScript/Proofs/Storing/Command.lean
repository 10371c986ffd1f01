import DialogScript.CommandLine.Command
import DialogScript.Proofs.Parsing.Streaming
import DialogScript.Proofs.Storing.Reals

/-!
# Stored programs run like their scripts

A program that was stored can be run in place of its script. The path under which it is stored is
in its plain form, so the file is found again (`Path.normalize_stored`); the stored tree is loaded
as it was (`Program.load_toJson`); and a run looks at no file but the script, in order to quote a
line of it (`Command.converse_congr`). So the two calls say the same, write the same trace and end
in the same way (`Command.perform_stored_eq_perform_script`).
-/

namespace DialogScript

/-! ### Paths -/

namespace Path

private theorem not_mem_of_mem_splitOn {mark : Char} {cs part : List Char}
    (h : part ∈ cs.splitOn mark) :
    mark ∉ part := by
  induction cs generalizing part with
  | nil =>
    obtain rfl : part = [] := by simpa [List.splitOn_nil] using h
    exact List.not_mem_nil
  | cons c cs ih =>
    rw [List.splitOn_cons_eq_if_modifyHead] at h
    split at h
    · rcases List.mem_cons.mp h with rfl | h
      · exact List.not_mem_nil
      · exact ih h
    · rename_i hc
      cases hsplit : cs.splitOn mark with
      | nil => exact absurd hsplit (List.splitOn_ne_nil _ _)
      | cons first rest =>
        rw [hsplit] at h ih
        rcases List.mem_cons.mp h with rfl | h
        · have hfirst := ih List.mem_cons_self
          have hne : c ≠ mark := by simpa using hc
          exact List.not_mem_cons_of_ne_of_not_mem (Ne.symm hne) hfirst
        · exact ih (List.mem_cons_of_mem _ h)

/-- A component of a path that counts. -/
structure IsComponent (part : String) : Prop where
  nonempty : part ≠ ""
  notSelf : part ≠ "."
  noSlash : '/' ∉ part.toList

private theorem isComponent_of_mem_components {path part : String} (h : part ∈ components path) :
    IsComponent part := by
  obtain ⟨hmem, hcounts⟩ := List.mem_filter.mp h
  obtain ⟨cs, hcs, rfl⟩ := List.mem_map.mp hmem
  simp only [Bool.and_eq_true, bne_iff_ne, ne_eq] at hcounts
  exact ⟨hcounts.1, hcounts.2, by simpa using not_mem_of_mem_splitOn hcs⟩

/-- What an absolute path can start with, and nothing. -/
def IsRoot (start : String) : Prop := start = "" ∨ start = "/" ∨ start = "//"

private theorem isRoot_root (path : String) : IsRoot (root path) := by
  unfold root
  split <;> simp [IsRoot]

/-- Components put together start with a character of the first one. -/
theorem toList_intercalate_components {part : String} (parts : List String)
    (h : IsComponent part) :
    ∃ c rest, ("/".intercalate (part :: parts)).toList = c :: rest ∧ c ≠ '/' := by
  cases hpart : part.toList with
  | nil => exact absurd (by simpa using hpart) h.nonempty
  | cons c cs =>
    have hc : c ≠ '/' := by
      rintro rfl
      exact h.noSlash (by simp [hpart])
    have htext : ("/".intercalate (part :: parts)).toList
        = c :: "/".toList.intercalate (cs :: parts.map String.toList) := by
      rw [String.toList_intercalate, List.map_cons, hpart, List.intercalate_cons_cons_left]
    exact ⟨c, _, htext, hc⟩

variable {start : String} {parts : List String}

private theorem root_append (hstart : IsRoot start) (hparts : ∀ part ∈ parts, IsComponent part)
    (hne : parts ≠ []) : root (start ++ "/".intercalate parts) = start := by
  obtain ⟨part, parts, rfl⟩ := List.exists_cons_of_ne_nil hne
  obtain ⟨c, rest, htext, hc⟩ :=
    toList_intercalate_components parts (hparts part List.mem_cons_self)
  unfold root
  rw [String.toList_append, htext]
  rcases hstart with rfl | rfl | rfl <;> simp [hc]

/-- A slash in front of a path adds no component. -/
theorem components_slash (path : String) : components ("/" ++ path) = components path := by
  have hsplit : ("/" ++ path).toList.splitOn '/' = [] :: path.toList.splitOn '/' := by
    rw [String.toList_append]
    exact List.splitOn_append_cons_self_of_not_mem List.not_mem_nil _
  rw [components, hsplit]
  simp [components]

private theorem components_intercalate (hparts : ∀ part ∈ parts, IsComponent part)
    (hne : parts ≠ []) :
    components ("/".intercalate parts) = parts := by
  have hmarks : ∀ cs ∈ parts.map String.toList, '/' ∉ cs := by
    intro cs hcs
    obtain ⟨part, hpart, rfl⟩ := List.mem_map.mp hcs
    exact (hparts part hpart).noSlash
  have hsplit : ("/".intercalate parts).toList.splitOn '/' = parts.map String.toList := by
    rw [String.toList_intercalate]
    exact List.splitOn_intercalate '/' hmarks (by simpa using hne)
  rw [components, hsplit]
  simp only [List.map_map, Function.comp_def, String.ofList_toList, List.map_id']
  refine List.filter_eq_self.mpr fun part hpart => ?_
  simp [(hparts part hpart).nonempty, (hparts part hpart).notSelf]

private theorem components_append (hstart : IsRoot start)
    (hparts : ∀ part ∈ parts, IsComponent part)
    (hne : parts ≠ []) : components (start ++ "/".intercalate parts) = parts := by
  have hparts := components_intercalate hparts hne
  rcases hstart with rfl | rfl | rfl
  · rwa [String.empty_append]
  · rwa [components_slash]
  · rwa [show "//" = "/" ++ "/" from rfl, String.append_assoc, components_slash, components_slash]

private theorem normalize_of_ne_nil {path : String} (h : components path ≠ []) :
    normalize path = root path ++ "/".intercalate (components path) := by
  unfold normalize
  split
  · contradiction
  · rfl

/-- A path made of a root and components is in its plain form. -/
theorem normalize_append (hstart : IsRoot start) (hparts : ∀ part ∈ parts, IsComponent part)
    (hne : parts ≠ []) :
    normalize (start ++ "/".intercalate parts) = start ++ "/".intercalate parts := by
  have hcomponents := components_append hstart hparts hne
  rw [normalize_of_ne_nil (by rwa [hcomponents]), root_append hstart hparts hne, hcomponents]

/-- The end of a stored program's name belongs to the last component of the path. -/
theorem stored_intercalate (front : List String) (last : String) :
    stored ("/".intercalate (front ++ [last])) = "/".intercalate (front ++ [stored last]) := by
  by_cases hfront : front = []
  · subst hfront
    simp [String.intercalate_singleton]
  · rw [String.intercalate_append_of_ne_nil hfront (by simp),
      String.intercalate_append_of_ne_nil hfront (by simp), String.intercalate_singleton,
      String.intercalate_singleton]
    simp only [stored, String.append_assoc]

private theorem isComponent_stored {part : String} (h : IsComponent part) :
    IsComponent (stored part) := by
  have htext : (stored part).toList = part.toList ++ ".ast.json".toList := String.toList_append
  refine ⟨?_, ?_, ?_⟩
  · intro hempty
    simp [hempty] at htext
  · intro hself
    rw [hself] at htext
    have := congrArg List.length htext
    simp at this
  · rw [htext]
    simp [h.noSlash]

/-- The file in which a program is stored is named by a path in its plain form. -/
theorem normalize_stored (path : String) :
    normalize (stored (normalize path)) = stored (normalize path) := by
  have hparts : ∀ part ∈ components path, IsComponent part :=
    fun _ => isComponent_of_mem_components
  have hroot := isRoot_root path
  rcases List.eq_nil_or_concat (components path) with hnone | ⟨front, last, hsome⟩
  · have hplain : normalize path = "." ∨ normalize path = "/" ∨ normalize path = "//" := by
      unfold normalize
      rw [hnone]
      rcases hroot with h | h | h <;> simp [h]
    rcases hplain with h | h | h <;> rw [h] <;> decide
  · rw [List.concat_eq_append] at hsome
    rw [hsome] at hparts
    have hplain : normalize path = root path ++ "/".intercalate (front ++ [last]) := by
      rw [normalize_of_ne_nil (by simp [hsome]), hsome]
    have hlast := isComponent_stored (hparts last (by simp))
    have hall : ∀ part ∈ front ++ [stored last], IsComponent part := by
      intro part hpart
      rcases List.mem_append.mp hpart with hpart | hpart
      · exact hparts part (by simp [hpart])
      · obtain rfl := List.mem_singleton.mp hpart
        exact hlast
    have hstored : stored (root path ++ "/".intercalate (front ++ [last]))
        = root path ++ "/".intercalate (front ++ [stored last]) := by
      rw [← stored_intercalate, stored, String.append_assoc, stored]
    rw [hplain, hstored]
    exact normalize_append hroot hall (by simp)

end Path

/-! ### Runs -/

variable {digits : DigitLimit}

/-- The run of an accepted text is the run of its program. -/
theorem Run.ofText_eq_ofProgram {source : Source} {text : String} {p : Program}
    (h : parseProgram source text digits = .ok p) :
    Run.ofText source text digits = Run.ofProgram p := by
  obtain ⟨hparsed, rfl⟩ := parseProgram_eq_ok h
  rw [Run.ofText, hparsed, Run.ofProgram]

/-- The statements of an accepted text are proper. -/
theorem proper_of_parseProgram {source : Source} {text : String} {p : Program}
    (h : parseProgram source text digits = .ok p) : ∀ s ∈ p.statements, s.Proper :=
  Grammar.proper_of_program (grammar_of_parseText (parseProgram_eq_ok h).1)

namespace Command

/-! ### Files -/

variable {files files' : String → Option String} {source : Source}

/-- A diagnostic is rendered with nothing but the text of its own source. -/
theorem runFailure_congr (e : RunError) (h : source.text? files = source.text? files') :
    runFailure files source e = runFailure files' source e := by
  unfold runFailure
  cases hd : e.diagnostic? source with
  | none => rfl
  | some d =>
    have hline : d.line? files = d.line? files' := by
      rw [Diagnostic.line?, Diagnostic.line?, RunError.source_of_diagnostic? hd, h]
    simp only [Diagnostic.render, Diagnostic.renderLines, hline]

private theorem closing_congr (ending : Ending) (h : source.text? files = source.text? files') :
    closing files source ending = closing files' source ending := by
  cases ending with
  | failed e => exact runFailure_congr e h
  | completed | unanswered | interrupted => rfl

private theorem withTrace_congr {path : String} (t : Trace) (h : files path = files' path) :
    withTrace files t path = withTrace files' t path := by
  rw [withTrace, withTrace, h]

/-- A run of a file looks at no other file. -/
theorem converse_congr {path : String} {r : Run} (hsource : r.source = .file path)
    (h : files path = files' path) (budget : Nat) (lines : List String) (i : Interpreter) :
    converse digits budget files lines i r = converse digits budget files' lines i r := by
  have htext : ∀ t, r.source.text? (withTrace files t) = r.source.text? (withTrace files' t) := by
    intro t
    rw [hsource]
    exact withTrace_congr t h
  unfold converse
  dsimp only
  rw [closing_congr _ (htext _)]

open Grammar

/-! ### Storing a program -/

private theorem exit_runFailure_ne (e : RunError) : (runFailure files source e).exit ≠ .code 0 := by
  unfold runFailure
  split <;> simp [Report.complaint, Report.failed]

/-- A call that stores a program ends well only if the script is a program. -/
theorem performTask_emit {script : String} {budget : Nat} {lines : List String}
    (h : (performTask digits budget files lines (.emit script)).exit = .code 0) :
    ∃ text p, files (Path.normalize script) = some text ∧
      parseProgram (.file (Path.normalize script)) text digits = .ok p ∧
      performTask digits budget files lines (.emit script)
        = ⟨[.print (Path.stored (Path.normalize script) ++ "\n")],
          [(Path.stored (Path.normalize script), p.toJson.write)], .code 0⟩ := by
  unfold performTask at h ⊢
  simp only [Task.path] at h ⊢
  cases hfile : files (Path.normalize script) with
  | none =>
    rw [hfile] at h
    simp [missingFile, Report.complaint] at h
  | some text =>
    rw [hfile] at h
    simp only [openTask, emit] at h ⊢
    cases hparse : parseProgram (.file (Path.normalize script)) text digits with
    | error e =>
      rw [hparse] at h
      exact absurd h (exit_runFailure_ne _)
    | ok p => exact ⟨text, p, rfl, hparse, rfl⟩

/-- The stored program of a script is opened as the script is. -/
theorem openStored_eq_openScript {path text : String} {p : Program}
    (hparse : parseProgram (.file path) text digits = .ok p) (settings : RunSettings) :
    openStored digits settings p.toJson.write = openScript digits settings path text := by
  have hproper := proper_of_parseProgram hparse
  have hsource : p.source.Storable := by
    rw [(parseProgram_eq_ok hparse).2]
    rfl
  have hstorable : p.Storable := ⟨hsource, fun s hs => (hproper s hs).storable⟩
  rw [openStored, Program.read?_write_toJson hproper, openScript, Run.ofText_eq_ofProgram hparse]
  simp only [Program.load_toJson hstorable]

/-- A script and its stored program are run in the same way, from files that may differ except in
the script. -/
theorem performTask_runStored {path script text : String} {p : Program}
    (hpath : Path.normalize script = path) (hparse : parseProgram (.file path) text digits = .ok p)
    (hscript : files path = some text) (hscript' : files' path = some text)
    (hstored : files' (Path.stored path) = some p.toJson.write)
    (budget : Nat) (lines : List String) (settings : RunSettings) :
    performTask digits budget files lines (.runScript script settings)
      = performTask digits budget files' lines (.runStored (Path.stored path) settings) := by
  have hplain : Path.normalize (Path.stored path) = Path.stored path := by
    rw [← hpath, Path.normalize_stored]
  simp only [performTask, Task.path, hpath, hplain, hscript, hstored, openTask,
    openStored_eq_openScript hparse]
  cases hinterpreter : settings.interpreter with
  | error f => simp only [openScript, hinterpreter]; rfl
  | ok i =>
    simp only [openScript, hinterpreter]
    exact converse_congr rfl (hscript.trans hscript'.symm) budget lines i

/-- Storing the program of a script and running what was stored comes to the same as running the
script: the same is said, the same trace is written and the calls end in the same way, for every
limit, every level of detail and all lines that are typed. What is asked of the files is that the
script is still there and that the stored program is. All calls read as many digits at most as the
host allows. -/
theorem perform_stored_eq_perform_script {script : String} {storing typed : List String}
    {steps : Nat} (hstoring : Task.ofArguments storing digits = .ok (.emit script))
    (hdone : (perform steps files storing typed digits).exit = .code 0) :
    ∃ content,
      perform steps files storing typed digits
          = ⟨[.print (Path.stored (Path.normalize script) ++ "\n")],
            [(Path.stored (Path.normalize script), content)], .code 0⟩ ∧
        ∀ (direct indirect : List String) (settings : RunSettings),
          Task.ofArguments direct digits = .ok (.runScript script settings) →
          Task.ofArguments indirect digits
            = .ok (.runStored (Path.stored (Path.normalize script)) settings) →
          ∀ before after : String → Option String,
            before (Path.normalize script) = files (Path.normalize script) →
            after (Path.normalize script) = files (Path.normalize script) →
            after (Path.stored (Path.normalize script)) = some content →
            ∀ budget lines,
              perform budget before direct lines digits
                = perform budget after indirect lines digits := by
  simp only [perform, hstoring] at hdone ⊢
  obtain ⟨text, p, hfile, hparse, hreport⟩ := performTask_emit hdone
  refine ⟨_, hreport, ?_⟩
  intro direct indirect settings hdirect hindirect before after hbefore hafter hstored budget lines
  simp only [hdirect, hindirect]
  exact performTask_runStored rfl hparse (hbefore.trans hfile) (hafter.trans hfile) hstored budget
    lines settings

/-- A script that asks for a value and then divides by zero. -/
def divisionScript : String := ">> n\n<< 0.5 / 0\n"

def divisionTokens : List Token :=
  [⟨.sign .input, ">>", 1, 1, 3⟩, ⟨.name, "n", 1, 4, 5⟩, ⟨.lineEnd, "\n", 1, 5, 6⟩,
    ⟨.sign .output, "<<", 2, 1, 3⟩, ⟨.float, "0.5", 2, 4, 7⟩, ⟨.sign .divide, "/", 2, 8, 9⟩,
    ⟨.integer, "0", 2, 10, 11⟩, ⟨.lineEnd, "\n", 2, 11, 12⟩, ⟨.sourceEnd, "", 3, 1, 2⟩]

/-- A directory with the script, and with the file of its stored program if it has been written. -/
def divisionFiles (stored : Option String) (path : String) : Option String :=
  if path = "a.dlg" then some divisionScript
  else if path = "a.dlg.ast.json" then stored
  else none

/-- The script is stored, and what was stored is run in its place, with a trace. -/
theorem perform_stored_division :
    ∃ content,
      perform 0 (divisionFiles none) ["--emit-ast", "a.dlg"] [] .standard
          = ⟨[.print "a.dlg.ast.json\n"], [("a.dlg.ast.json", content)], .code 0⟩ ∧
        ∀ budget lines,
          perform budget (divisionFiles none) ["-v", "a.dlg"] lines .standard
            = perform budget (divisionFiles (some content)) ["-v", "--ast", "a.dlg.ast.json"]
                lines .standard := by
  have htokens : tokensOf divisionScript = ⟨divisionTokens, none⟩ := by decide +kernel
  have hhalf : Expression .standard .product [⟨.float, "0.5", 2, 4, 7⟩] _ :=
    (Expression.float rfl (show _ = ['0'] ++ '.' :: ['5'] from rfl)
      (Numeral.isDigits_singleton rfl) (Numeral.isDigits_singleton rfl)).lift _ (by decide)
  have hzero : Expression .standard Level.product.tighter [⟨.integer, "0", 2, 10, 11⟩] _ :=
    (Expression.shortInteger rfl (by decide) (by decide)).lift _ (by decide)
  have hquotient : Expression .standard .product ([⟨.float, "0.5", 2, 4, 7⟩]
      ++ ⟨.sign .divide, "/", 2, 8, 9⟩ :: [⟨.integer, "0", 2, 10, 11⟩]) (.binary .div _ _ _) :=
    .binary rfl (Level.precedes_tighter (by decide)) rfl hhalf hzero
  have hderived : ∃ ss, Grammar.Program .standard divisionTokens ss :=
    ⟨_, .statements (.cons (.input rfl rfl rfl) (.cons (.output rfl hquotient.whole rfl) .nil)) rfl⟩
  obtain ⟨ss, hderived⟩ := hderived
  have hparse := parseProgram_of_grammar htokens hderived (.file "a.dlg")
  have hstoring : Task.ofArguments ["--emit-ast", "a.dlg"] .standard = .ok (.emit "a.dlg") := by
    decide +kernel
  have hdone :
      (perform 0 (divisionFiles none) ["--emit-ast", "a.dlg"] [] .standard).exit = .code 0 := by
    have hfile : divisionFiles none "a.dlg" = some divisionScript := rfl
    have hpath : Path.normalize "a.dlg" = "a.dlg" := by decide +kernel
    simp only [perform, hstoring, performTask, Task.path, hpath, hfile, openTask, emit, hparse]
  obtain ⟨content, hreport, hrun⟩ := perform_stored_eq_perform_script hstoring hdone
  have htarget : Path.stored (Path.normalize "a.dlg") = "a.dlg.ast.json" := by decide +kernel
  rw [htarget] at hreport hrun
  refine ⟨content, hreport, ?_⟩
  exact hrun ["-v", "a.dlg"] ["-v", "--ast", "a.dlg.ast.json"] ⟨some 100, 1⟩ (by decide +kernel)
    (by decide +kernel) _ _ rfl rfl rfl

end Command

end DialogScript
