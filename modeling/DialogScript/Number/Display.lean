import DialogScript.Number.Layout

/-!
# Display of floats

The text that a script shows for a float: the nearest decimal with the fewest digits, at most
nine, that reads back as the same number when it is read as a double and then brought to single
precision.
-/

namespace DialogScript

namespace Floating

/-- Floats are shown positionally from `0.0001` up to seven digits, and a whole number has no
decimal point. -/
def displayLayout : Layout := ⟨-4, 7, "", "E"⟩

/-- Whether a decimal reads back, through double precision, as the single `q`. -/
def readsBack (q : Rat) (d : Decimal) : Bool :=
  (d.toFloating .double false).toSingle == .finite q

/-- The nearest decimal of the positive number `q` with the fewest digits from `count` on that
reads back; the last one tried if none does. -/
def displayDecimal (q : Rat) : (fuel count : Nat) → Decimal
  | 0, count => Decimal.nearest count q
  | fuel + 1, count =>
    let d := Decimal.nearest count q
    if readsBack q d then d else displayDecimal q fuel (count + 1)

/-- The display text of a float. -/
def display : Floating → String
  | .nan => "NaN"
  | .infinite s => if s then "-Infinity" else "Infinity"
  | .zero s => if s then "-0" else "0"
  | .finite q =>
    (if q < 0 then "-" else "") ++ displayLayout.write (displayDecimal (magnitude q) 8 1)

end Floating

end DialogScript
