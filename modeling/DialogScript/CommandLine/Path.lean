/-!
# Paths

The plain form of a path: its components without empty ones and without those that stand for the
directory itself.
-/

namespace DialogScript.Path

/-- The components of a path that count. -/
def components (path : String) : List String :=
  ((path.toList.splitOn '/').map String.ofList).filter fun part => part != "" && part != "."

/-- What an absolute path starts with. Exactly two slashes stay two; any other number counts as
one. -/
def root (path : String) : String :=
  match path.toList with
  | '/' :: '/' :: '/' :: _ => "/"
  | '/' :: '/' :: _ => "//"
  | '/' :: _ => "/"
  | _ => ""

/-- The plain form of a path. -/
def normalize (path : String) : String :=
  match root path, components path with
  | "", [] => "."
  | start, parts => start ++ "/".intercalate parts

/-- The file in which the program of a script is stored, beside the script. -/
def stored (path : String) : String := path ++ ".ast.json"

end DialogScript.Path
