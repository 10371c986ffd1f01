import DialogScript.Value

/-!
# Environments

The variables of a dialog: one namespace in which every name stands for at most one value. Names
keep the order in which they were first given a value.
-/

namespace DialogScript

/-- Names with their values, in the order in which they were first set. -/
abbrev Environment := List (String × Value)

namespace Environment

/-- The value of a name. -/
def get? (env : Environment) (name : String) : Option Value :=
  match env with
  | [] => none
  | (n, v) :: rest => if n = name then some v else get? rest name

/-- Gives a name a value. -/
def set (env : Environment) (name : String) (value : Value) : Environment :=
  match env with
  | [] => [(name, value)]
  | (n, v) :: rest => if n = name then (n, value) :: rest else (n, v) :: set rest name value

/-- After setting a name, that name has the new value and every other name its old one. -/
theorem get?_set (env : Environment) (name other : String) (value : Value) :
    (env.set name value).get? other = if name = other then some value else env.get? other := by
  induction env with
  | nil => simp [set, get?]
  | cons entry rest ih =>
    obtain ⟨n, v⟩ := entry
    by_cases hn : n = name
    · subst hn
      by_cases ho : n = other <;> simp [set, get?, ho]
    · by_cases ho : n = other
      · subst ho
        simp [set, get?, hn, Ne.symm hn]
      · simp [set, get?, hn, ho, ih]

end Environment

end DialogScript
