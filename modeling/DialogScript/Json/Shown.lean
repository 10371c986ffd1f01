import DialogScript.Json.Writer

/-!
# Documents in messages

How messages speak about a document that is not what was expected: by the name of its kind
(`kindName`), or by showing it on one line (`shown`). A text is shown between quotes inside
another document, and as it is where a word is expected (`label`). Of two fields with one key the
later value stands in the place of the earlier one.
-/

namespace DialogScript.Json

open Text

/-- The name of a document's kind in messages. -/
def kindName : Json → String
  | .null => "NoneType"
  | .boolean _ => "bool"
  | .integer _ => "int"
  | .real _ => "float"
  | .text _ => "str"
  | .array _ => "list"
  | .object _ => "dict"

/-- Whether a document is made of others. -/
def isCompound : Json → Bool
  | .array _ | .object _ => true
  | _ => false

/-- Whether a document counts as true. -/
def isTruthy : Json → Bool
  | .null => false
  | .boolean b => b
  | .integer n => n != 0
  | .real x => !x.isZero
  | .text s => s != ""
  | .array items => !items.isEmpty
  | .object fields => !fields.isEmpty

/-- How messages show a double. -/
def shownReal : Floating → String
  | .nan => "nan"
  | .infinite s => if s then "-inf" else "inf"
  | x => writeReal x

/-- Fields with one more in front. If its key comes again, the later value takes its place. -/
def addField (key text : String) (fields : List (String × String)) : List (String × String) :=
  (key, (fields.lookup key).getD text) :: fields.filter (fun field => field.1 != key)

/-- The fields of an object on one line. -/
def shownFieldTexts (fields : List (String × String)) : String :=
  ", ".intercalate (fields.map fun field => quoted field.1 ++ ": " ++ field.2)

mutual

/-- How messages show a document. -/
def shown : Json → String
  | .null => "None"
  | .boolean b => if b then "True" else "False"
  | .integer n => toString n
  | .real x => shownReal x
  | .text s => quoted s
  | .array items => "[" ++ ", ".intercalate (shownItems items) ++ "]"
  | .object fields => "\x7b" ++ shownFieldTexts (shownFields fields) ++ "\x7d"

/-- How messages show each item of an array. -/
def shownItems : List Json → List String
  | [] => []
  | item :: rest => shown item :: shownItems rest

/-- The keys of an object with how messages show their values. -/
def shownFields : List (String × Json) → List (String × String)
  | [] => []
  | (key, value) :: rest => addField key (shown value) (shownFields rest)

end

/-- How messages name a document that stands where a word is expected. -/
def label : Json → String
  | .text s => s
  | other => other.shown

end DialogScript.Json
