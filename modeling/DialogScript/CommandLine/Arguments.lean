import DialogScript.Number.Numeral
import DialogScript.Text.Quoted

/-!
# Arguments

The arguments of the command line and what they ask for. Options may be mixed with the one
operand, long options may be shortened as long as they stay unambiguous, short ones may be
written together, and the value of an option is attached with `=` or is the next argument. All
arguments are told apart before any of them takes effect; then they take effect from left to
right, and the first one that is in the way ends the reading.
-/

namespace DialogScript

/-- The options. -/
inductive Switch where
  | help
  | verbose
  | limit
  | emit
  | stored
  deriving DecidableEq

namespace Switch

/-- All options in the order in which they are listed. -/
def all : List Switch := [.help, .verbose, .limit, .emit, .stored]

/-- How an option can be written. -/
def spellings : Switch → List String
  | .help => ["-h", "--help"]
  | .verbose => ["-v"]
  | .limit => ["--max-iterations"]
  | .emit => ["--emit-ast"]
  | .stored => ["--ast"]

/-- How messages name an option. -/
def title (s : Switch) : String := "/".intercalate s.spellings

/-- Whether an option has a value. -/
def takesValue : Switch → Bool
  | .help => false
  | .verbose => false
  | .limit => true
  | .emit => true
  | .stored => true

/-- The options by their spellings. -/
def bySpelling : List (String × Switch) :=
  all.flatMap fun s => s.spellings.map fun spelling => (spelling, s)

/-- The option with a spelling. -/
def ofSpelling? (spelling : String) : Option Switch := bySpelling.lookup spelling

end Switch

/-- Why arguments make no sense. -/
inductive UsageError where
  | ambiguous (argument : String) (candidates : List String)
  | ignoredValue (switch : Switch) (value : String)
  | missingValue (switch : Switch)
  | badLimit (value : String)
  | conflict (switch other : Switch)
  | unrecognized (arguments : List String)
  | missingProgram
  deriving DecidableEq

/-- The text for arguments that make no sense. -/
def UsageError.message : UsageError → String
  | .ambiguous argument candidates =>
    "ambiguous option: " ++ argument ++ " could match " ++ ", ".intercalate candidates
  | .ignoredValue switch value =>
    "argument " ++ switch.title ++ ": ignored explicit argument " ++ Text.quoted value
  | .missingValue switch => "argument " ++ switch.title ++ ": expected one argument"
  | .badLimit value =>
    "argument " ++ Switch.limit.title ++ ": invalid int value: " ++ Text.quoted value
  | .conflict switch other =>
    "argument " ++ switch.title ++ ": not allowed with argument " ++ other.title
  | .unrecognized arguments => "unrecognized arguments: " ++ " ".intercalate arguments
  | .missingProgram => "missing program file; or use --emit-ast/--ast"

/-! ### Telling arguments apart -/

/-- What an argument is. -/
inductive Argument where
  /-- An operand, or the value of the option before it. -/
  | plain (content : String)
  /-- The mark behind which all arguments are plain. -/
  | separator
  /-- An option, written in the long form or not, with the value attached to it. -/
  | switch (switch : Switch) (isLong : Bool) (attached : Option String)
  /-- An option that does not exist. -/
  | unknown (content : String)
  deriving DecidableEq

namespace Argument

/-- The argument behind which everything is plain. -/
def separatorText : String := "--"

/-- What stands before the first `=`, and behind it if there is one. -/
def splitAssignment (cs : List Char) : List Char × Option (List Char) :=
  match cs.dropWhile (· != '=') with
  | [] => (cs, none)
  | _ :: value => (cs.takeWhile (· != '='), some value)

/-- Whether an argument is written like an option but is a negative number. A line break may
follow the number. -/
def looksNegative : List Char → Bool
  | '-' :: rest =>
    let number := if rest.getLast? = some '\n' then rest.dropLast else rest
    let isDigit (c : Char) : Bool := (Text.digitValue? c).isSome
    match number.dropWhile isDigit with
    | [] => !number.isEmpty
    | '.' :: fraction => !fraction.isEmpty && fraction.all isDigit
    | _ => false
  | _ => false

/-- The spellings that an argument can be short for, with the value attached to it. A long option
may be cut off; behind a short one its attached value starts at once. -/
def candidates (cs : List Char) : List String × Option String :=
  match cs with
  | '-' :: '-' :: _ =>
    let (start, value) := splitAssignment cs
    ((Switch.bySpelling.map (·.1)).filter fun spelling => start.isPrefixOf spelling.toList,
      value.map String.ofList)
  | _ =>
    ((Switch.bySpelling.map (·.1)).filter fun spelling => spelling.toList == cs.take 2,
      some (String.ofList (cs.drop 2)))

/-- The argument for an option with a spelling. -/
def ofSpelling (spelling : String) (attached : Option String) : Option Argument :=
  (Switch.ofSpelling? spelling).map fun s =>
    .switch s (['-', '-'].isPrefixOf spelling.toList) attached

/-- An option written out in full, with its attached value if it has one. -/
def inFull? (cs : List Char) : Option Argument :=
  match ofSpelling (String.ofList cs) none with
  | some argument => some argument
  | none =>
    match splitAssignment cs with
    | (_, none) => none
    | (spelling, some value) => ofSpelling (String.ofList spelling) (some (String.ofList value))

/-- What an argument that is no option in full is: a shortened option, a negative number or a
text with spaces, which are plain, or an option that does not exist. -/
def inPart (cs : List Char) : Except UsageError Argument :=
  let plainOrUnknown : Argument :=
    if looksNegative cs || cs.contains ' ' then .plain (String.ofList cs)
    else .unknown (String.ofList cs)
  match candidates cs with
  | ([], _) => .ok plainOrUnknown
  | ([spelling], attached) => .ok ((ofSpelling spelling attached).getD plainOrUnknown)
  | (several, _) => .error (.ambiguous (String.ofList cs) several)

/-- What an argument is. -/
def classify (content : String) : Except UsageError Argument :=
  match content.toList with
  | '-' :: c :: rest =>
    match inFull? ('-' :: c :: rest) with
    | some argument => .ok argument
    | none => inPart ('-' :: c :: rest)
  | _ => .ok (.plain content)

/-- What the arguments are. -/
def classifyAll : List String → Except UsageError (List Argument)
  | [] => .ok []
  | content :: rest =>
    if content = separatorText then .ok (.separator :: rest.map .plain)
    else do
      let first ← classify content
      return first :: (← classifyAll rest)

/-- Arguments without a separator in front. -/
def dropSeparator : List Argument → List Argument
  | .separator :: rest => rest
  | arguments => arguments

private theorem length_dropSeparator_le (arguments : List Argument) :
    (dropSeparator arguments).length ≤ arguments.length := by
  unfold dropSeparator
  split <;> simp

end Argument

/-! ### What the arguments say -/

/-- What the arguments say. -/
structure Settings where
  /-- How many times more detail was asked for. -/
  verbosity : Nat
  /-- How many iterations a loop may have; none if the option was given without a number. -/
  limit : Option Int
  emit : Option String
  stored : Option String
  /-- The operand. -/
  program : Option String
  /-- The arguments that make no sense. -/
  unrecognized : List String
  deriving DecidableEq

/-- Why the reading of arguments ends early. -/
inductive Stop where
  | help
  | misuse (error : UsageError)
  deriving DecidableEq

namespace Settings

/-- What no arguments say. -/
def standard : Settings := ⟨0, some 100, none, none, none, []⟩

/-- Notes an argument that makes no sense. -/
def reject (s : Settings) (content : String) : Settings :=
  { s with unrecognized := s.unrecognized ++ [content] }

/-- Gives effect to an option without a value. -/
def raise (s : Settings) (switch : Switch) : Except Stop Settings :=
  match switch with
  | .help => .error .help
  | .verbose => .ok { s with verbosity := s.verbosity + 1 }
  | _ => .error (.misuse (.missingValue switch))

/-- Gives effect to an option with a value. A separator in place of a value is no value. -/
def assign (digits : DigitLimit) (s : Settings) (switch : Switch) (value : String) :
    Except Stop Settings :=
  let file := if value = Argument.separatorText then "" else value
  match switch with
  | .limit =>
    if value = Argument.separatorText then .ok { s with limit := none }
    else
      match Numeral.readInteger value digits with
      | .ok n => .ok { s with limit := some n }
      | .error _ => .error (.misuse (.badLimit value))
  | .emit =>
    if s.stored.isSome then .error (.misuse (.conflict .emit .stored))
    else .ok { s with emit := some file }
  | .stored =>
    if s.emit.isSome then .error (.misuse (.conflict .stored .emit))
    else .ok { s with stored := some file }
  | other => .error (.misuse (.ignoredValue other value))

/-- The options that are written together behind a short one. -/
def cluster (switch : Switch) : List Char → Except UsageError (List Switch)
  | [] => .ok [switch]
  | c :: rest =>
    match Switch.ofSpelling? (String.ofList ['-', c]) with
    | some next => do return switch :: (← cluster next rest)
    | none => .error (.ignoredValue switch (String.ofList (c :: rest)))

/-- Gives effect to an option with what is attached to it. -/
def attach (digits : DigitLimit) (s : Settings) (switch : Switch) (isLong : Bool)
    (attached : String) : Except Stop Settings :=
  if switch.takesValue then s.assign digits switch attached
  else if isLong || attached.isEmpty then .error (.misuse (.ignoredValue switch attached))
  else
    match cluster switch attached.toList with
    | .ok switches => switches.foldlM raise s
    | .error e => .error (.misuse e)

/-- Gives effect to arguments. The first plain one that is no value is the operand. -/
def take (digits : DigitLimit) (s : Settings) (arguments : List Argument) : Except Stop Settings :=
  match arguments with
  | [] => .ok s
  | .plain content :: rest =>
    have := Argument.length_dropSeparator_le rest
    if s.program.isSome then take digits (s.reject content) rest
    else take digits { s with program := some content } (Argument.dropSeparator rest)
  | .separator :: rest =>
    if s.program.isSome then take digits (s.reject Argument.separatorText) rest
    else take digits s rest
  | .unknown content :: rest => take digits (s.reject content) rest
  | .switch switch isLong (some attached) :: rest => do
    take digits (← s.attach digits switch isLong attached) rest
  | .switch switch _ none :: rest =>
    if switch.takesValue then
      match rest with
      | .plain value :: rest => do take digits (← s.assign digits switch value) rest
      | _ => .error (.misuse (.missingValue switch))
    else do take digits (← s.raise switch) rest
termination_by arguments.length

end Settings

/-! ### What is to be done -/

/-- How a program is to be run. -/
structure RunSettings where
  limit : Option Int
  traceLevel : Nat
  deriving DecidableEq

/-- What is to be done. -/
inductive Task where
  /-- Store the program of a script. -/
  | emit (path : String)
  /-- Run a stored program. -/
  | runStored (path : String) (settings : RunSettings)
  /-- Run a script. -/
  | runScript (path : String) (settings : RunSettings)
  deriving DecidableEq

namespace Task

/-- The file that a task works on. -/
def path : Task → String
  | .emit path => path
  | .runStored path _ => path
  | .runScript path _ => path

/-- What settings ask for. An empty name of a file counts as none. -/
def ofSettings (s : Settings) : Except Stop Task :=
  let named (name : Option String) : Option String := name.filter (· ≠ "")
  let running : RunSettings := ⟨s.limit, s.verbosity⟩
  if s.unrecognized ≠ [] then .error (.misuse (.unrecognized s.unrecognized))
  else
    match named s.emit, named s.stored, named s.program with
    | some path, _, _ => .ok (.emit path)
    | none, some path, _ => .ok (.runStored path running)
    | none, none, some path => .ok (.runScript path running)
    | none, none, none => .error (.misuse .missingProgram)

/-- What arguments ask for. -/
def ofArguments (arguments : List String) (digits : DigitLimit := .lifted) : Except Stop Task :=
  match Argument.classifyAll arguments with
  | .error e => .error (.misuse e)
  | .ok classified => do ofSettings (← Settings.standard.take digits classified)

end Task

/-! ### What is said about arguments -/

/-- How the program is to be called. -/
def usage : String :=
  "usage: dialang [-h] [-v] [--max-iterations N]\n"
    ++ "               [--emit-ast DLG_FILE | --ast AST_JSON_FILE]\n"
    ++ "               [program]\n"

/-- What the program does and which options it has. -/
def helpText : String :=
  usage
    ++ "\nDialang script interpreter\n"
    ++ "\npositional arguments:\n"
    ++ "  program              Dialang script (.dlg) to execute\n"
    ++ "\noptions:\n"
    ++ "  -h, --help           show this help message and exit\n"
    ++ "  -v                   increase debug verbosity (can be repeated)\n"
    ++ "  --max-iterations N   maximum iterations per loop (default: 100)\n"
    ++ "  --emit-ast DLG_FILE  emit AST JSON for the given .dlg file\n"
    ++ "  --ast AST_JSON_FILE  execute AST from a JSON file\n"

/-- What is said about arguments that make no sense. -/
def UsageError.report (e : UsageError) : String :=
  usage ++ "dialang: error: " ++ e.message ++ "\n"

end DialogScript
