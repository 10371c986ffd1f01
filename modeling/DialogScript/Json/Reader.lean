import DialogScript.Json
import DialogScript.Number.Numeral

/-!
# Reading JSON

`Json.read?` reads a document from a text. Beyond the standard format it takes the words `NaN`,
`Infinity` and `-Infinity` for numbers. Each part of the reader gives what is left of the text
with the fact that it is shorter.

The whole numbers of a document may have any number of digits: a bound of the host
(`DigitLimit`) is not held against them. The integers, lines and columns of a stored program do not
come near one.
-/

namespace DialogScript.Json

open Text

/-- What is left of a text after something was read from it. -/
abbrev Left (cs : List Char) := { rest : List Char // rest.length < cs.length }

/-- Whether a character may stand between the parts of a document. -/
def isSpace (c : Char) : Bool := c == ' ' || c == '\t' || c == '\n' || c == '\r'

/-- Drops spaces and line breaks. -/
def skipSpace (cs : List Char) : { rest : List Char // rest.length ≤ cs.length } :=
  ⟨cs.dropWhile isSpace, by
    induction cs with
    | nil => simp
    | cons c cs ih =>
      rw [List.dropWhile_cons]
      split
      · exact Nat.le_succ_of_le ih
      · exact Nat.le_refl _⟩

/-- Reads a given character, after spaces. -/
def accept (mark : Char) (cs : List Char) : Option (Left cs) :=
  let ⟨next, h⟩ := skipSpace cs
  match next with
  | [] => none
  | c :: rest =>
    if c = mark then some ⟨rest, by simp only [List.length_cons] at h; omega⟩ else none

/-- The value of a hexadecimal digit. -/
def hexValue? (c : Char) : Option Nat :=
  if '0' ≤ c && c ≤ '9' then some (c.toNat - '0'.toNat)
  else if 'a' ≤ c && c ≤ 'f' then some (c.toNat - 'a'.toNat + 10)
  else if 'A' ≤ c && c ≤ 'F' then some (c.toNat - 'A'.toNat + 10)
  else none

/-- The number that four hexadecimal digits stand for. -/
def hexUnit? (a b c d : Char) : Option Nat := do
  return (((← hexValue? a) * 16 + (← hexValue? b)) * 16 + (← hexValue? c)) * 16 + (← hexValue? d)

/-- Whether a number is the first half of a surrogate pair. -/
def isHighHalf (n : Nat) : Bool := 0xd800 ≤ n && n < 0xdc00

/-- Whether a number is the second half of a surrogate pair. -/
def isLowHalf (n : Nat) : Bool := 0xdc00 ≤ n && n < 0xe000

/-- The character of a surrogate pair. -/
def pairChar (high low : Nat) : Char :=
  Char.ofNat (0x10000 + (high - 0xd800) * 0x400 + (low - 0xdc00))

/-- The character that an escape of one letter stands for. -/
def unescape? : Char → Option Char
  | '"' => some '"'
  | '\\' => some '\\'
  | '/' => some '/'
  | 'b' => some '\x08'
  | 'f' => some '\x0c'
  | 'n' => some '\n'
  | 'r' => some '\r'
  | 't' => some '\t'
  | _ => none

/-- Reads an escape that is the second half of a surrogate pair. -/
def readLowHalf : (cs : List Char) → Option (Nat × Left cs)
  | '\\' :: 'u' :: a :: b :: c :: d :: rest => do
    let unit ← hexUnit? a b c d
    if isLowHalf unit then return (unit, ⟨rest, by simp only [List.length_cons]; omega⟩) else none
  | _ => none

/-- Reads one character of a text, an escape or a character that stands for itself. -/
def readChar : (cs : List Char) → Option (Char × Left cs)
  | '\\' :: 'u' :: a :: b :: c :: d :: rest => do
    let unit ← hexUnit? a b c d
    match readLowHalf rest with
    | some (low, ⟨more, h⟩) =>
      if isHighHalf unit then
        return (pairChar unit low, ⟨more, by simp only [List.length_cons]; omega⟩)
      else return (Char.ofNat unit, ⟨rest, by simp only [List.length_cons]; omega⟩)
    | none => return (Char.ofNat unit, ⟨rest, by simp only [List.length_cons]; omega⟩)
  | '\\' :: c :: rest => do
    let plain ← unescape? c
    return (plain, ⟨rest, by simp only [List.length_cons]; omega⟩)
  | c :: rest =>
    if c == '\\' || c == '"' || c.toNat < 0x20 then none else some (c, ⟨rest, by simp⟩)
  | [] => none

/-- Reads the rest of a text up to its closing quote. -/
def readText (cs : List Char) : Option (List Char × Left cs) :=
  match cs with
  | '"' :: rest => some ([], ⟨rest, by simp⟩)
  | cs => do
    let (c, ⟨rest, h⟩) ← readChar cs
    let (more, ⟨last, h'⟩) ← readText rest
    return (c :: more, ⟨last, by omega⟩)
termination_by cs.length

/-- The whole part of a number: a zero, or digits that do not start with one. -/
def splitWhole (cs : List Char) : List Char × List Char :=
  match cs with
  | '0' :: rest => (['0'], rest)
  | cs => (cs.takeWhile isAsciiDigit, cs.dropWhile isAsciiDigit)

/-- The fraction of a number, with its point, if there is one. -/
def splitFraction (cs : List Char) : List Char × List Char :=
  match cs with
  | '.' :: rest =>
    let digits := rest.takeWhile isAsciiDigit
    if digits.isEmpty then ([], cs) else ('.' :: digits, rest.dropWhile isAsciiDigit)
  | _ => ([], cs)

/-- The exponent of a number, with its mark, if there is one. -/
def splitExponent (cs : List Char) : List Char × List Char :=
  match cs with
  | mark :: rest =>
    if mark == 'e' || mark == 'E' then
      let (sign, tail) :=
        match rest with
        | '+' :: more => (['+'], more)
        | '-' :: more => (['-'], more)
        | more => ([], more)
      let digits := tail.takeWhile isAsciiDigit
      if digits.isEmpty then ([], cs)
      else (mark :: sign ++ digits, tail.dropWhile isAsciiDigit)
    else ([], cs)
  | [] => ([], [])

/-- Reads an unsigned number. A number with neither a fraction nor an exponent is whole. -/
def readNumber (negative : Bool) (cs : List Char) : Option (Json × List Char) :=
  let (whole, rest) := splitWhole cs
  if whole.isEmpty then none
  else
    let (fraction, rest) := splitFraction rest
    let (exponent, rest) := splitExponent rest
    if fraction.isEmpty && exponent.isEmpty then
      let n : Int := Numeral.value whole
      some (.integer (if negative then -n else n), rest)
    else
      (Numeral.decimal? (whole ++ fraction ++ exponent)).map fun d =>
        (.real (d.toFloating .double negative), rest)

/-- The words that stand for values. -/
def words : List (String × Json) :=
  [("null", .null), ("true", .boolean true), ("false", .boolean false),
    ("NaN", .real .nan), ("Infinity", .real (.infinite false)),
    ("-Infinity", .real (.infinite true))]

/-- Reads a word that stands for a value. -/
def readWord (cs : List Char) : Option (Json × List Char) :=
  (words.find? fun w => w.1.toList.isPrefixOf cs).map fun w => (w.2, cs.drop w.1.length)

/-- Reads a value that holds no other values and is no text. -/
def readScalar (cs : List Char) : Option (Json × Left cs) := do
  let (value, rest) ←
    match readWord cs with
    | some found => some found
    | none =>
      match cs with
      | '-' :: rest => readNumber true rest
      | _ => readNumber false cs
  if h : rest.length < cs.length then return (value, ⟨rest, h⟩) else none

mutual

/-- Reads a value. -/
def readValue (cs : List Char) : Option (Json × Left cs) :=
  match cs with
  | '"' :: rest => do
    let (chars, ⟨last, h⟩) ← readText rest
    return (.text (String.ofList chars), ⟨last, by simp only [List.length_cons]; omega⟩)
  | '[' :: rest =>
    match accept ']' rest with
    | some ⟨last, h⟩ => some (.array [], ⟨last, by simp only [List.length_cons]; omega⟩)
    | none => do
      let ⟨next, h⟩ := skipSpace rest
      let (items, ⟨last, hlast⟩) ← readItems next
      return (.array items, ⟨last, by simp only [List.length_cons]; omega⟩)
  | '{' :: rest =>
    match accept '}' rest with
    | some ⟨last, h⟩ => some (.object [], ⟨last, by simp only [List.length_cons]; omega⟩)
    | none => do
      let ⟨next, h⟩ := skipSpace rest
      let (fields, ⟨last, hlast⟩) ← readFields next
      return (.object fields, ⟨last, by simp only [List.length_cons]; omega⟩)
  | cs => readScalar cs
termination_by (cs.length, 0)

/-- Reads the items of an array up to its closing bracket. -/
def readItems (cs : List Char) : Option (List Json × Left cs) := do
  let (item, ⟨rest, h⟩) ← readValue cs
  match accept ']' rest with
  | some ⟨last, h'⟩ => return ([item], ⟨last, by omega⟩)
  | none =>
    let ⟨more, h'⟩ ← accept ',' rest
    let ⟨next, hnext⟩ := skipSpace more
    let (items, ⟨last, hlast⟩) ← readItems next
    return (item :: items, ⟨last, by omega⟩)
termination_by (cs.length, 1)

/-- Reads the fields of an object up to its closing brace. -/
def readFields (cs : List Char) : Option (List (String × Json) × Left cs) := do
  let ⟨start, hstart⟩ ← accept '"' cs
  let (key, ⟨rest, h⟩) ← readText start
  let ⟨more, hmore⟩ ← accept ':' rest
  let ⟨next, hnext⟩ := skipSpace more
  let (value, ⟨rest', hvalue⟩) ← readValue next
  match accept '}' rest' with
  | some ⟨last, h'⟩ => return ([(String.ofList key, value)], ⟨last, by omega⟩)
  | none =>
    let ⟨more', h'⟩ ← accept ',' rest'
    let (fields, ⟨last, hlast⟩) ← readFields more'
    return ((String.ofList key, value) :: fields, ⟨last, by omega⟩)
termination_by (cs.length, 1)

end

/-- Reads a document, which fills the whole text. -/
def read? (text : String) : Option Json := do
  let (value, ⟨rest, _⟩) ← readValue (skipSpace text.toList).1
  if (skipSpace rest).1.isEmpty then return value else none

end DialogScript.Json
