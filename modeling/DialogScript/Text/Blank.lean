import DialogScript.Text.Ranges

/-!
# Blank characters

Two classes of characters without ink. The white ones are spaces of every width, tabs and line
breaks; they may surround a number. The blank ones are these and the four information separators;
they are dropped around a typed answer.
-/

namespace DialogScript.Text

/-- The code points of white characters. -/
def whiteRanges : List (Nat × Nat) :=
  [(0x9, 0xd), (0x20, 0x20), (0x85, 0x85), (0xa0, 0xa0), (0x1680, 0x1680), (0x2000, 0x200a),
   (0x2028, 0x2029), (0x202f, 0x202f), (0x205f, 0x205f), (0x3000, 0x3000)]

/-- Whether a character is white. -/
def isWhite (c : Char) : Bool := inRanges whiteRanges c.toNat

/-- Whether a character separates files, groups, records or units. -/
def isInformationSeparator (c : Char) : Bool := 0x1c ≤ c.toNat && c.toNat ≤ 0x1f

/-- Whether a character is blank. -/
def isBlank (c : Char) : Bool := isWhite c || isInformationSeparator c

/-- Drops the characters of a class on both sides. -/
def trim (p : Char → Bool) (cs : List Char) : List Char :=
  ((cs.dropWhile p).reverse.dropWhile p).reverse

end DialogScript.Text
