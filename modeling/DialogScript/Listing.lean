/-!
# Listings

A listing is what comes out of a source that is read from left to right: the items it gives and,
if something went wrong after them, the fault that ended it. The items before a fault stand, so a
reader of the listing can use them before the fault is noticed.
-/

namespace DialogScript

/-- Items, and the fault that ended them if there was one. -/
structure Listing (α ε : Type) where
  items : List α
  fault : Option ε
  deriving DecidableEq, Inhabited

namespace Listing

variable {α ε : Type}

/-- The items alone, if nothing went wrong. -/
def toExcept (l : Listing α ε) : Except ε (List α) :=
  match l.fault with
  | none => .ok l.items
  | some e => .error e

/-- A listing with items put in front. -/
def prepend (front : List α) (l : Listing α ε) : Listing α ε := ⟨front ++ l.items, l.fault⟩

@[simp]
theorem items_prepend (front : List α) (l : Listing α ε) :
    (l.prepend front).items = front ++ l.items := rfl

@[simp]
theorem fault_prepend (front : List α) (l : Listing α ε) : (l.prepend front).fault = l.fault := rfl

end Listing

end DialogScript
