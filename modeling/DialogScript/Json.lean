import DialogScript.Number.Floating

/-!
# JSON documents

The data format in which programs are stored. Whole numbers are kept exactly and apart from
numbers with a fraction or an exponent, which are doubles; the fields of an object keep their
order.
-/

namespace DialogScript

/-- A JSON document. -/
inductive Json where
  | null
  | boolean (value : Bool)
  | integer (value : Int)
  | real (value : Floating)
  | text (value : String)
  | array (items : List Json)
  | object (fields : List (String × Json))
  deriving Inhabited

namespace Json

mutual

/-- Whether two documents are the same, the order of fields included. -/
def same : Json → Json → Bool
  | .null, .null => true
  | .boolean a, .boolean b => a == b
  | .integer a, .integer b => a == b
  | .real a, .real b => a == b
  | .text a, .text b => a == b
  | .array a, .array b => sameItems a b
  | .object a, .object b => sameFields a b
  | _, _ => false

/-- Whether two lists of documents are the same. -/
def sameItems : List Json → List Json → Bool
  | [], [] => true
  | a :: as, b :: bs => same a b && sameItems as bs
  | _, _ => false

/-- Whether two lists of fields are the same. -/
def sameFields : List (String × Json) → List (String × Json) → Bool
  | [], [] => true
  | (k, a) :: as, (l, b) :: bs => k == l && same a b && sameFields as bs
  | _, _ => false

end

instance : BEq Json := ⟨same⟩

/-- The field of a list of fields with a given key; of several the last one. -/
def findField (key : String) : List (String × Json) → Option Json
  | [] => none
  | (k, value) :: rest =>
    match findField key rest with
    | some later => some later
    | none => if k = key then some value else none

/-- The field of an object with a given key. -/
def field? (key : String) : Json → Option Json
  | .object fields => findField key fields
  | _ => none

private theorem sizeOf_findField {key : String} {fields : List (String × Json)} {value : Json}
    (h : findField key fields = some value) : sizeOf value < sizeOf fields := by
  induction fields with
  | nil => simp [findField] at h
  | cons f rest ih =>
    obtain ⟨k, v⟩ := f
    simp only [findField] at h
    split at h
    · rename_i hrest
      obtain rfl := by simpa using h
      have := ih hrest
      simp only [List.cons.sizeOf_spec]
      omega
    · split at h
      · obtain rfl := by simpa using h
        simp only [List.cons.sizeOf_spec, Prod.mk.sizeOf_spec]
        omega
      · simp at h

/-- A field of a document is smaller than the document. -/
theorem sizeOf_field? {key : String} {j value : Json} (h : j.field? key = some value) :
    sizeOf value < sizeOf j := by
  unfold field? at h
  split at h
  · have := sizeOf_findField h
    simp only [Json.object.sizeOf_spec]
    omega
  · simp at h

end Json

end DialogScript
