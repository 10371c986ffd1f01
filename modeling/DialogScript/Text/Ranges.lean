/-!
# Character classes as ranges of code points

A class of characters is a list of closed ranges of code points in ascending order. Membership
reads the ranges from the left and stops as soon as a range starts above the character.
-/

namespace DialogScript.Text

/-- Whether `n` lies in one of the ranges, which stand in ascending order. -/
def inRanges : List (Nat × Nat) → Nat → Bool
  | [], _ => false
  | (low, high) :: rest, n => if n < low then false else n ≤ high || inRanges rest n

end DialogScript.Text
