import DialogScript.Json.Reader
import DialogScript.Json.Writer
import DialogScript.Proofs.Numerals
import Mathlib.Tactic.SplitIfs

/-!
# Written documents read back

What `Json.write` writes, `Json.read?` reads as the same document (`Json.read?_write`). Each reader
takes its part from the front of a text and leaves the rest (`Json.Gives`); a written value can be
read wherever a comma, a line break or nothing follows it (`Json.ReadsAs`). The structure of a
document, its texts, its words and its whole numbers are dealt with here; of the real numbers it is
only asked that each of them reads back (`Json.Readable`).
-/

namespace DialogScript

namespace Json

open Text

/-- A reader takes a value from the front of a text and leaves the rest of it. -/
def Gives {α : Type} (read : (cs : List Char) → Option (α × Left cs)) (cs : List Char) (value : α)
    (rest : List Char) : Prop :=
  ∃ h, read cs = some (value, ⟨rest, h⟩)

/-! ### Texts -/

/-- How a character is written in a text: by one letter, by its code point or as it is. -/
theorem escapeChar_cases (c : Char) :
    (∃ letter, escapeChar c = ['\\', letter] ∧ letter ≠ 'u' ∧ unescape? letter = some c) ∨
    (escapeChar c = '\\' :: 'u' :: hexDigits 4 c.toNat ∧ c.toNat < 0x20) ∨
    (escapeChar c = [c] ∧ (c == '\\' || c == '"' || decide (c.toNat < 0x20)) = false) := by
  unfold escapeChar
  by_cases hmark : (c == '"' || c == '\\') = true
  · rw [if_pos hmark]
    rw [Bool.or_eq_true, beq_iff_eq, beq_iff_eq] at hmark
    rcases hmark with rfl | rfl <;> exact .inl ⟨_, rfl, by decide, rfl⟩
  rw [if_neg hmark]
  simp only [beq_iff_eq]
  split_ifs with hfeed hreturn htab hpage hback hcontrol
  · exact .inl ⟨_, rfl, by decide, by rw [hfeed]; rfl⟩
  · exact .inl ⟨_, rfl, by decide, by rw [hreturn]; rfl⟩
  · exact .inl ⟨_, rfl, by decide, by rw [htab]; rfl⟩
  · exact .inl ⟨_, rfl, by decide, by rw [hpage]; rfl⟩
  · exact .inl ⟨_, rfl, by decide, by rw [hback]; rfl⟩
  · exact .inr (.inl ⟨rfl, hcontrol⟩)
  · refine .inr (.inr ⟨rfl, ?_⟩)
    simp_all

/-- The four digits of a control character read back as its code point. -/
theorem hexUnit?_hexDigits : ∀ n < 0x20, ∃ a b, hexDigits 4 n = ['0', '0', a, b] ∧
    hexUnit? '0' '0' a b = some n ∧ isHighHalf n = false := by
  have hdigits : ∀ n < 0x20,
      hexDigits 4 n = ['0', '0', Nat.digitChar (n / 16), Nat.digitChar (n % 16)] ∧
      hexUnit? '0' '0' (Nat.digitChar (n / 16)) (Nat.digitChar (n % 16)) = some n ∧
      isHighHalf n = false := by
    decide
  exact fun n hn => ⟨_, _, hdigits n hn⟩

/-- A backslash and a letter are read as the character that the letter stands for. -/
private theorem readChar_letter {letter c : Char} (hletter : letter ≠ 'u')
    (hplain : unescape? letter = some c) (rest : List Char) :
    Gives readChar ('\\' :: letter :: rest) c rest := by
  refine ⟨by simp only [List.length_cons]; omega, ?_⟩
  rw [readChar, hplain]
  · rfl
  · rintro a b c d more rfl
    exact absurd rfl hletter

/-- A backslash, `u` and four digits are read as one character, if it is no half of one. -/
private theorem readChar_hex {a b c d : Char} {n : Nat} (hunit : hexUnit? a b c d = some n)
    (hhigh : isHighHalf n = false) (rest : List Char) :
    Gives readChar ('\\' :: 'u' :: a :: b :: c :: d :: rest) (Char.ofNat n) rest := by
  refine ⟨by simp only [List.length_cons]; omega, ?_⟩
  rw [readChar, hunit]
  cases hlow : readLowHalf rest with
  | none => rfl
  | some low => simp [hhigh]

/-- A character that needs no escape is read as itself. -/
private theorem readChar_plain {c : Char}
    (hplain : (c == '\\' || c == '"' || decide (c.toNat < 0x20)) = false) (rest : List Char) :
    Gives readChar (c :: rest) c rest := by
  refine ⟨by simp, ?_⟩
  have hc : c ≠ '\\' := by
    rintro rfl
    simp at hplain
  rw [readChar, hplain]
  · rfl
  · rintro a b c d more rfl
    exact absurd rfl hc
  · rintro _ _ rfl
    exact absurd rfl hc

/-- A written character is read back. -/
theorem readChar_escapeChar (c : Char) (rest : List Char) :
    Gives readChar (escapeChar c ++ rest) c rest := by
  rcases escapeChar_cases c with ⟨letter, heq, hletter, hplain⟩ | ⟨heq, hcontrol⟩ | ⟨heq, hplain⟩
  · rw [heq]
    exact readChar_letter hletter hplain rest
  · obtain ⟨a, b, hdigits, hunit, hhigh⟩ := hexUnit?_hexDigits c.toNat hcontrol
    rw [heq, hdigits]
    simpa using readChar_hex hunit hhigh rest
  · rw [heq]
    exact readChar_plain hplain rest

private theorem readText_quote (rest : List Char) : Gives readText ('"' :: rest) [] rest :=
  ⟨by simp, by rw [readText]⟩

/-- A text with one more character in front, however that is written. -/
private theorem readText_char {cs middle rest more : List Char} {c : Char}
    (hhead : cs.head? ≠ some '"')
    (hchar : Gives readChar cs c middle) (hmore : Gives readText middle more rest) :
    Gives readText cs (c :: more) rest := by
  obtain ⟨hless, hchar⟩ := hchar
  obtain ⟨hless', hmore⟩ := hmore
  refine ⟨by omega, ?_⟩
  rw [readText]
  · simp [hchar, hmore]
  · rintro rest rfl
    exact absurd rfl hhead

private theorem head?_escapeChar (c : Char) (rest : List Char) :
    (escapeChar c ++ rest).head? ≠ some '"' := by
  rcases escapeChar_cases c with ⟨letter, heq, -, -⟩ | ⟨heq, -⟩ | ⟨heq, hplain⟩
  · simp [heq]
  · simp [heq]
  · rw [heq]
    rintro h
    obtain rfl : c = '"' := by simpa using h
    simp at hplain

/-- A written text is read up to its closing quote. -/
theorem readText_escaped (cs rest : List Char) :
    Gives readText (cs.flatMap escapeChar ++ '"' :: rest) cs rest := by
  induction cs with
  | nil => exact readText_quote rest
  | cons c cs ih =>
    rw [List.flatMap_cons, List.append_assoc]
    exact readText_char (head?_escapeChar c _) (readChar_escapeChar c _) ih

/-! ### Spaces and marks -/

private theorem skipSpace_eq_self {cs : List Char} (h : ∀ c ∈ cs.head?, isSpace c = false) :
    (skipSpace cs).1 = cs := by
  cases cs with
  | nil => rfl
  | cons c cs => simp [skipSpace, h c (by simp)]

/-- The break and the indentation of a line are skipped as a whole. -/
private theorem skipSpace_newLine {rest : List Char} (h : ∀ c ∈ rest.head?, isSpace c = false)
    (depth : Nat) : (skipSpace ((newLine depth).toList ++ rest)).1 = rest := by
  have hspaces : ∀ c ∈ (newLine depth).toList, isSpace c = true := by
    intro c hc
    rw [newLine, String.toList_ofList, List.mem_cons, List.mem_replicate] at hc
    rcases hc with rfl | ⟨-, rfl⟩ <;> decide
  change List.dropWhile isSpace ((newLine depth).toList ++ rest) = rest
  rw [List.dropWhile_append_of_pos hspaces]
  exact skipSpace_eq_self h

variable {cs rest middle more next last : List Char}

private theorem accept_mark {mark : Char} (h : (skipSpace cs).1 = mark :: rest) :
    ∃ hless, accept mark cs = some ⟨rest, hless⟩ := by
  have hlength := (skipSpace cs).2
  rw [h] at hlength
  refine ⟨hlength, ?_⟩
  unfold accept
  dsimp only
  split
  · rename_i hnil _
    rw [h] at hnil
    cases hnil
  · rename_i hcons _
    rw [h] at hcons
    obtain ⟨rfl, rfl⟩ := List.cons.inj hcons
    rw [if_pos rfl]

/-- A mark is not accepted where another character stands. -/
theorem accept_eq_none {mark : Char} (h : (skipSpace cs).1.head? ≠ some mark) :
    accept mark cs = none := by
  unfold accept
  dsimp only
  split
  · rfl
  · rename_i hcons _
    rw [hcons] at h
    rw [if_neg (by simpa using h)]

/-! ### Arrays and objects -/
/-- The last item of an array, up to the closing bracket. -/

private theorem readItems_last {item : Json} (hitem : Gives readValue cs item middle)
    (hclose : (skipSpace middle).1 = ']' :: rest) : Gives readItems cs [item] rest := by
  obtain ⟨hless, hitem⟩ := hitem
  obtain ⟨hless', hclose⟩ := accept_mark hclose
  refine ⟨by omega, ?_⟩
  rw [readItems, hitem]
  simp [hclose]

/-- An item of an array that a comma and more items follow. -/
private theorem readItems_more {item : Json} {items : List Json}
    (hitem : Gives readValue cs item middle)
    (hcomma : (skipSpace middle).1 = ',' :: more)
    (hitems : Gives readItems (skipSpace more).1 items rest) :
    Gives readItems cs (item :: items) rest := by
  obtain ⟨hless, hitem⟩ := hitem
  have hclose : accept ']' middle = none := accept_eq_none (by simp [hcomma])
  obtain ⟨hless', hcomma⟩ := accept_mark hcomma
  obtain ⟨hless'', hitems⟩ := hitems
  have hskip := (skipSpace more).2
  refine ⟨by omega, ?_⟩
  rw [readItems, hitem]
  simp [hclose, hcomma, hitems]

/-- The last field of an object, up to the closing brace. -/
private theorem readFields_last {key : String} {value : Json} {start : List Char}
    (hquote : (skipSpace cs).1 = '"' :: start) (hkey : Gives readText start key.toList middle)
    (hcolon : (skipSpace middle).1 = ':' :: more)
    (hvalue : Gives readValue (skipSpace more).1 value next)
    (hclose : (skipSpace next).1 = '}' :: rest) :
    Gives readFields cs [(key, value)] rest := by
  obtain ⟨hless, hquote⟩ := accept_mark hquote
  obtain ⟨hless', hkey⟩ := hkey
  obtain ⟨hless'', hcolon⟩ := accept_mark hcolon
  obtain ⟨hless₃, hvalue⟩ := hvalue
  obtain ⟨hless₄, hclose⟩ := accept_mark hclose
  have hskip := (skipSpace more).2
  refine ⟨by omega, ?_⟩
  rw [readFields, hquote]
  simp only [Option.bind_eq_bind, Option.bind_some, hkey, hcolon, hvalue, hclose,
    String.ofList_toList]
  rfl

/-- A field of an object that a comma and more fields follow. -/
private theorem readFields_more {key : String} {value : Json} {fields : List (String × Json)}
    {start : List Char} (hquote : (skipSpace cs).1 = '"' :: start)
    (hkey : Gives readText start key.toList middle)
    (hcolon : (skipSpace middle).1 = ':' :: more)
    (hvalue : Gives readValue (skipSpace more).1 value next)
    (hcomma : (skipSpace next).1 = ',' :: last)
    (hfields : Gives readFields last fields rest) :
    Gives readFields cs ((key, value) :: fields) rest := by
  obtain ⟨hless, hquote⟩ := accept_mark hquote
  obtain ⟨hless', hkey⟩ := hkey
  obtain ⟨hless'', hcolon⟩ := accept_mark hcolon
  obtain ⟨hless₃, hvalue⟩ := hvalue
  have hclose : accept '}' next = none := accept_eq_none (by simp [hcomma])
  obtain ⟨hless₄, hcomma⟩ := accept_mark hcomma
  obtain ⟨hless₅, hfields⟩ := hfields
  have hskip := (skipSpace more).2
  refine ⟨by omega, ?_⟩
  rw [readFields, hquote]
  simp only [Option.bind_eq_bind, Option.bind_some, hkey, hcolon, hvalue, hclose, hcomma, hfields,
    String.ofList_toList]
  rfl

private theorem readValue_text {chars : List Char} (h : Gives readText cs chars rest) :
    Gives readValue ('"' :: cs) (.text (String.ofList chars)) rest := by
  obtain ⟨hless, h⟩ := h
  refine ⟨by simp only [List.length_cons]; omega, ?_⟩
  rw [readValue]
  simp [h]

private theorem readValue_emptyArray (h : (skipSpace cs).1 = ']' :: rest) :
    Gives readValue ('[' :: cs) (.array []) rest := by
  obtain ⟨hless, h⟩ := accept_mark h
  refine ⟨by simp only [List.length_cons]; omega, ?_⟩
  rw [readValue]
  simp [h]

/-- An array is read as its items. -/
private theorem readValue_array {items : List Json} (hne : (skipSpace cs).1.head? ≠ some ']')
    (h : Gives readItems (skipSpace cs).1 items rest) :
    Gives readValue ('[' :: cs) (.array items) rest := by
  obtain ⟨hless, h⟩ := h
  have hskip := (skipSpace cs).2
  refine ⟨by simp only [List.length_cons]; omega, ?_⟩
  rw [readValue]
  simp [accept_eq_none hne, h]

private theorem readValue_emptyObject (h : (skipSpace cs).1 = '}' :: rest) :
    Gives readValue ('{' :: cs) (.object []) rest := by
  obtain ⟨hless, h⟩ := accept_mark h
  refine ⟨by simp only [List.length_cons]; omega, ?_⟩
  rw [readValue]
  simp [h]

/-- An object is read as its fields. -/
private theorem readValue_object {fields : List (String × Json)}
    (hne : (skipSpace cs).1.head? ≠ some '}')
    (h : Gives readFields (skipSpace cs).1 fields rest) :
    Gives readValue ('{' :: cs) (.object fields) rest := by
  obtain ⟨hless, h⟩ := h
  have hskip := (skipSpace cs).2
  refine ⟨by simp only [List.length_cons]; omega, ?_⟩
  rw [readValue]
  simp [accept_eq_none hne, h]

/-! ### Written values -/

/-- What may stand behind a written value: nothing, a comma or a line break. -/
def Stops (rest : List Char) : Prop := ∀ c ∈ rest.head?, c = ',' ∨ c = '\n'

theorem stops_nil : Stops [] := by simp [Stops]

/-- A document ends where a new line starts. -/
private theorem stops_newLine (depth : Nat) (rest : List Char) :
    Stops ((newLine depth).toList ++ rest) := by
  intro c hc
  rw [newLine, String.toList_ofList] at hc
  exact .inr (by simpa using hc.symm)

private theorem stops_comma (rest : List Char) : Stops (',' :: rest) := by
  intro c hc
  exact .inl (by simpa using hc.symm)

/-- A text is read as a document, wherever it may stand. -/
structure ReadsAs (text : List Char) (j : Json) : Prop where
  starts : ∃ c cs, text = c :: cs ∧ isSpace c = false ∧ c ≠ ']'
  reads : ∀ rest, Stops rest → Gives readValue (text ++ rest) j rest

/-- A document starts with no space and with no closing bracket. -/
theorem ReadsAs.head? {text : List Char} {j : Json} (h : ReadsAs text j) (rest : List Char) :
    (∀ c ∈ (text ++ rest).head?, isSpace c = false) ∧ (text ++ rest).head? ≠ some ']' := by
  obtain ⟨c, cs, rfl, hspace, hne⟩ := h.starts
  simpa using ⟨hspace, hne⟩

/-- A written text is read as itself. -/
private theorem readsAs_text (s : String) : ReadsAs (writeText s).toList (.text s) := by
  have hwritten : (writeText s).toList = '"' :: (s.toList.flatMap escapeChar ++ ['"']) := by
    simp [writeText]
  rw [hwritten]
  refine ⟨⟨_, _, rfl, by decide, by decide⟩, fun rest _ => ?_⟩
  have hread := readValue_text (readText_escaped s.toList rest)
  rw [String.ofList_toList] at hread
  simpa using hread

/-- Written items are read back, up to the closing bracket on a line of its own. -/
private theorem readItems_written {item : Json} {items : List Json} (depth depth' : Nat)
    (hitem : ReadsAs (writeAt depth item).toList item)
    (hitems : ∀ j ∈ items, ReadsAs (writeAt depth j).toList j) (rest : List Char) :
    Gives readItems ((writeAt depth item).toList ++ ((writeItems depth items).toList
      ++ ((newLine depth').toList ++ ']' :: rest))) (item :: items) rest := by
  induction items generalizing item with
  | nil =>
    rw [writeItems, String.toList_empty, List.nil_append]
    refine readItems_last (hitem.reads _ (stops_newLine _ _)) (skipSpace_newLine ?_ _)
    simp [isSpace]
  | cons j items ih =>
    obtain ⟨hj, hitems⟩ := List.forall_mem_cons.mp hitems
    have hrest := ih hj hitems
    have hwritten : (writeItems depth (j :: items)).toList
          ++ ((newLine depth').toList ++ ']' :: rest)
        = ',' :: ((newLine depth).toList ++ ((writeAt depth j).toList
          ++ ((writeItems depth items).toList ++ ((newLine depth').toList ++ ']' :: rest)))) := by
      simp [writeItems]
    rw [hwritten]
    refine readItems_more (hitem.reads _ (stops_comma _)) (skipSpace_eq_self (by simp [isSpace])) ?_
    rw [skipSpace_newLine (hj.head? _).1]
    exact hrest

private theorem skipSpace_blank (cs : List Char) :
    (skipSpace (' ' :: cs)).1 = (skipSpace cs).1 := rfl

/-- The fields of an object, from the first key up to the closing brace. -/
theorem readFields_written {key : String} {value : Json} {fields : List (String × Json)}
    (depth depth' : Nat) (hvalue : ReadsAs (writeAt depth value).toList value)
    (hfields : ∀ f ∈ fields, ReadsAs (writeAt depth f.2).toList f.2) (rest : List Char)
    (hcs : (skipSpace cs).1 = '"' :: (key.toList.flatMap escapeChar ++ '"' :: ':' :: ' ' ::
      ((writeAt depth value).toList ++ ((writeFields depth fields).toList
        ++ ((newLine depth').toList ++ '}' :: rest))))) :
    Gives readFields cs ((key, value) :: fields) rest := by
  induction fields generalizing key value cs with
  | nil =>
    rw [writeFields, String.toList_empty, List.nil_append] at hcs
    refine readFields_last hcs (readText_escaped _ _) (skipSpace_eq_self (by simp [isSpace])) ?_
      (skipSpace_newLine (by simp [isSpace]) depth')
    rw [skipSpace_blank, skipSpace_eq_self (hvalue.head? _).1]
    exact hvalue.reads _ (stops_newLine _ _)
  | cons f fields ih =>
    obtain ⟨key', value'⟩ := f
    obtain ⟨hvalue', hfields⟩ := List.forall_mem_cons.mp hfields
    have hwritten : (writeFields depth ((key', value') :: fields)).toList
          ++ ((newLine depth').toList ++ '}' :: rest)
        = ',' :: ((newLine depth).toList ++ '"' :: (key'.toList.flatMap escapeChar ++ '"' :: ':' ::
          ' ' :: ((writeAt depth value').toList ++ ((writeFields depth fields).toList
            ++ ((newLine depth').toList ++ '}' :: rest))))) := by
      simp [writeFields, writeText]
    rw [hwritten] at hcs
    refine readFields_more hcs (readText_escaped _ _) (skipSpace_eq_self (by simp [isSpace])) ?_
      (skipSpace_eq_self (by simp [isSpace])) (ih hvalue' hfields (skipSpace_newLine ?_ depth))
    · rw [skipSpace_blank, skipSpace_eq_self (hvalue.head? _).1]
      exact hvalue.reads _ (stops_comma _)
    · simp [isSpace]

/-- A written array is read as itself if its items are. -/
private theorem readsAs_array {items : List Json} (depth : Nat)
    (h : ∀ j ∈ items, ReadsAs (writeAt (depth + 1) j).toList j) :
    ReadsAs (writeAt depth (.array items)).toList (.array items) := by
  cases items with
  | nil =>
    have hwritten : (writeAt depth (.array [])).toList = ['[', ']'] := by
      rw [writeAt]
      rfl
    rw [hwritten]
    refine ⟨⟨'[', _, rfl, by decide, by decide⟩, fun rest _ => ?_⟩
    exact readValue_emptyArray (skipSpace_eq_self (by simp [isSpace]))
  | cons item items =>
    obtain ⟨hitem, hitems⟩ := List.forall_mem_cons.mp h
    have hwritten : (writeAt depth (.array (item :: items))).toList
        = '[' :: ((newLine (depth + 1)).toList ++ ((writeAt (depth + 1) item).toList
          ++ ((writeItems (depth + 1) items).toList ++ ((newLine depth).toList ++ [']'])))) := by
      simp [writeAt]
    rw [hwritten]
    refine ⟨⟨'[', _, rfl, by decide, by decide⟩, fun rest _ => ?_⟩
    have hread := readItems_written (depth + 1) depth hitem hitems rest
    simp only [List.cons_append, List.append_assoc, List.nil_append]
    have hskip := skipSpace_newLine (hitem.head? ((writeItems (depth + 1) items).toList
      ++ ((newLine depth).toList ++ ']' :: rest))).1 (depth + 1)
    refine readValue_array ?_ ?_
    · rw [hskip]
      exact (hitem.head? _).2
    · rwa [hskip]

/-- A written object is read as itself if the values of its fields are. -/
private theorem readsAs_object {fields : List (String × Json)} (depth : Nat)
    (h : ∀ f ∈ fields, ReadsAs (writeAt (depth + 1) f.2).toList f.2) :
    ReadsAs (writeAt depth (.object fields)).toList (.object fields) := by
  cases fields with
  | nil =>
    have hwritten : (writeAt depth (.object [])).toList = ['{', '}'] := by
      rw [writeAt]
      rfl
    rw [hwritten]
    refine ⟨⟨'{', _, rfl, by decide, by decide⟩, fun rest _ => ?_⟩
    exact readValue_emptyObject (skipSpace_eq_self (by simp [isSpace]))
  | cons f fields =>
    obtain ⟨key, value⟩ := f
    obtain ⟨hvalue, hfields⟩ := List.forall_mem_cons.mp h
    have hwritten : (writeAt depth (.object ((key, value) :: fields))).toList
        = '{' :: ((newLine (depth + 1)).toList ++ '"' :: (key.toList.flatMap escapeChar ++ '"' ::
          ':' :: ' ' :: ((writeAt (depth + 1) value).toList
            ++ ((writeFields (depth + 1) fields).toList
              ++ ((newLine depth).toList ++ ['}']))))) := by
      simp [writeAt, writeText]
    rw [hwritten]
    refine ⟨⟨'{', _, rfl, by decide, by decide⟩, fun rest _ => ?_⟩
    simp only [List.cons_append, List.append_assoc, List.nil_append]
    have hskip : ∀ cs, (skipSpace ((newLine (depth + 1)).toList ++ '"' :: cs)).1 = '"' :: cs :=
      fun cs => skipSpace_newLine (by simp [isSpace]) (depth + 1)
    refine readValue_object ?_ (readFields_written (depth + 1) depth hvalue hfields rest ?_)
    · rw [hskip]
      simp
    · rw [hskip, skipSpace_eq_self (by simp [isSpace])]

/-! ### Words and numbers -/

private theorem readValue_scalar {c : Char} (hquote : c ≠ '"') (hbracket : c ≠ '[')
    (hbrace : c ≠ '{') :
    readValue (c :: cs) = readScalar (c :: cs) := by
  rw [readValue]
  · rintro rest ⟨⟩
    exact hquote rfl
  · rintro rest ⟨⟩
    exact hbracket rfl
  · rintro rest ⟨⟩
    exact hbrace rfl

/-- What is read as a scalar and starts as no other document does is read as that document. -/
private theorem readsAs_of_readScalar {c : Char} (cs : List Char) {j : Json}
    (hspace : isSpace c = false)
    (hc : c ∉ ['"', '[', ']', '{'])
    (h : ∀ rest, Stops rest → Gives readScalar (c :: cs ++ rest) j rest) : ReadsAs (c :: cs) j := by
  simp only [List.mem_cons, List.not_mem_nil, or_false, not_or] at hc
  obtain ⟨hquote, hopen, hclose, hbrace⟩ := hc
  refine ⟨⟨c, cs, rfl, hspace, hclose⟩, fun rest hrest => ?_⟩
  obtain ⟨hless, hread⟩ := h rest hrest
  exact ⟨hless, (readValue_scalar hquote hopen hbrace).trans hread⟩

private theorem length_lt_append (c : Char) (cs rest : List Char) :
    rest.length < (c :: cs ++ rest).length := by
  rw [List.cons_append, List.length_cons, List.length_append]
  omega

private theorem readScalar_word {j : Json} (h : readWord cs = some (j, rest))
    (hless : rest.length < cs.length) : Gives readScalar cs j rest :=
  ⟨hless, by simp [readScalar, h, hless]⟩

/-- A minus sign is read together with the number behind it. -/
private theorem readScalar_negative {j : Json} (hword : readWord ('-' :: cs) = none)
    (h : readNumber true cs = some (j, rest)) (hless : rest.length < ('-' :: cs).length) :
    Gives readScalar ('-' :: cs) j rest := by
  refine ⟨hless, ?_⟩
  simp only [readScalar, hword, h, Option.bind_eq_bind, Option.bind_some]
  exact dif_pos hless

private theorem readScalar_number {j : Json} {c : Char} (hc : c ≠ '-')
    (hword : readWord (c :: cs) = none)
    (h : readNumber false (c :: cs) = some (j, rest)) (hless : rest.length < (c :: cs).length) :
    Gives readScalar (c :: cs) j rest := by
  refine ⟨hless, ?_⟩
  simp only [readScalar, hword, h, Option.bind_eq_bind, Option.bind_some]
  split
  · rename_i heq
    exact absurd (List.cons.inj heq).1 hc
  · exact dif_pos hless

/-- A word is read as the document it stands for. -/
theorem readsAs_of_readWord {c : Char} (cs : List Char) {j : Json} (hspace : isSpace c = false)
    (hc : c ∉ ['"', '[', ']', '{']) (h : ∀ rest, readWord (c :: cs ++ rest) = some (j, rest)) :
    ReadsAs (c :: cs) j :=
  readsAs_of_readScalar cs hspace hc fun rest _ =>
    readScalar_word (h rest) (length_lt_append c cs rest)

private theorem readsAs_null : ReadsAs "null".toList .null :=
  readsAs_of_readWord (c := 'n') ['u', 'l', 'l'] (by decide) (by decide) fun _ => rfl

private theorem readsAs_boolean (b : Bool) :
    ReadsAs (if b then "true" else "false").toList (.boolean b) := by
  cases b with
  | true => exact readsAs_of_readWord (c := 't') _ (by decide) (by decide) fun _ => rfl
  | false => exact readsAs_of_readWord (c := 'f') _ (by decide) (by decide) fun _ => rfl

/-- The digits before the point of a number: a zero alone, or digits that do not start with one. -/
structure IsWhole (whole : List Char) : Prop where
  digits : Numeral.IsDigits whole
  head : whole.head? = some '0' → whole = ['0']

/-- The digits of a number are a whole number without zeros in front. -/
theorem isWhole_toDigits (n : Nat) : IsWhole (Nat.toDigits 10 n) := by
  refine ⟨isDigits_toDigits n, fun h => ?_⟩
  rcases Nat.eq_zero_or_pos n with rfl | hn
  · rfl
  · exact absurd rfl (head_toDigits hn '0' h)

/-- The digits of a whole number are split off where no further digit follows. -/
theorem splitWhole_append {whole : List Char} (h : IsWhole whole)
    (hrest : ∀ c, rest.head? = some c → isAsciiDigit c = false) :
    splitWhole (whole ++ rest) = (whole, rest) := by
  by_cases hzero : whole.head? = some '0'
  · rw [h.head hzero]
    rfl
  · obtain ⟨htake, hdrop⟩ := takeWhile_run h.digits.2 hrest
    rw [splitWhole, htake, hdrop]
    intro more heq
    obtain ⟨c, cs, rfl⟩ := List.exists_cons_of_ne_nil h.digits.1
    rw [(List.cons.inj heq).1] at hzero
    exact hzero rfl

/-- Without a point there is no fraction. -/
theorem splitFraction_eq_nil (h : rest.head? ≠ some '.') : splitFraction rest = ([], rest) := by
  unfold splitFraction
  split
  · exact absurd rfl h
  · rfl

theorem Stops.head?_ne {c : Char} (h : Stops rest) (hcomma : c ≠ ',') (hbreak : c ≠ '\n') :
    rest.head? ≠ some c := by
  intro hc
  rcases h c hc with rfl | rfl
  · exact hcomma rfl
  · exact hbreak rfl

/-- No digit follows a document that ends. -/
theorem Stops.isAsciiDigit (h : Stops rest) (c : Char) (hc : rest.head? = some c) :
    isAsciiDigit c = false := by
  rcases h c hc with rfl | rfl <;> decide

/-- Where a document ends there is no exponent. -/
theorem splitExponent_of_stops (h : Stops rest) : splitExponent rest = ([], rest) := by
  unfold splitExponent
  split
  · rcases h _ rfl with rfl | rfl <;> rfl
  · rfl

/-- The digits of a number are read as the number, with its sign. -/
private theorem readNumber_toDigits (n : Nat) (negative : Bool) (h : Stops rest) :
    readNumber negative (Nat.toDigits 10 n ++ rest)
      = some (.integer (if negative then -(n : Int) else n), rest) := by
  have hne : (Nat.toDigits 10 n).isEmpty = false := by simp [Nat.toDigits_ne_nil]
  simp only [readNumber, splitWhole_append (isWhole_toDigits n) h.isAsciiDigit, hne,
    splitFraction_eq_nil (h.head?_ne (by decide) (by decide)), splitExponent_of_stops h,
    value_toDigits]
  rfl

private theorem toList_toString (n : Int) :
    (toString n).toList
      = if n < 0 then '-' :: Nat.toDigits 10 n.natAbs else Nat.toDigits 10 n.natAbs := by
  cases n with
  | ofNat n => simp [toString, Int.repr, Nat.repr]
  | negSucc n => simp [toString, Int.repr, Nat.repr]

/-- No word that stands for a value starts with a digit, with or without a sign before it. -/
theorem readWord_of_digit {c : Char} (cs : List Char) (hc : isAsciiDigit c = true) :
    readWord (c :: cs) = none ∧ readWord ('-' :: c :: cs) = none := by
  have hfirst : ∀ w ∈ words, w.1.toList.head?.any isAsciiDigit = false := by decide
  have hsecond : ∀ w ∈ words, w.1.toList.tail.head?.any isAsciiDigit = false := by decide
  have hlong : ∀ w ∈ words, w.1.toList ≠ [] ∧ w.1.toList.tail ≠ [] := by decide
  simp only [readWord, Option.map_eq_none_iff, List.find?_eq_none, List.isPrefixOf_iff_prefix,
    List.prefix_cons_iff]
  refine ⟨fun w hw => ?_, fun w hw => ?_⟩
  · rintro (hnil | ⟨more, hmore, -⟩)
    · exact (hlong w hw).1 hnil
    · simpa [hmore, hc] using hfirst w hw
  · rintro (hnil | ⟨more, hmore, rfl | ⟨t, rfl, -⟩⟩)
    · exact (hlong w hw).1 hnil
    · exact (hlong w hw).2 (by simp [hmore])
    · simpa [hmore, hc] using hsecond w hw

private theorem not_mem_of_digit {c : Char} {marks : List Char} (hc : isAsciiDigit c = true)
    (hmarks : marks.any isAsciiDigit = false) : c ∉ marks := by
  intro hmem
  have := List.any_eq_false.mp hmarks c hmem
  contradiction

/-- A number with a sign is read as a document if the number is read after its sign. -/
theorem readsAs_number (negative : Bool) {c : Char} {cs : List Char} {j : Json}
    (hc : isAsciiDigit c = true)
    (h : ∀ rest, Stops rest → readNumber negative (c :: cs ++ rest) = some (j, rest)) :
    ReadsAs (if negative then '-' :: c :: cs else c :: cs) j := by
  cases negative with
  | true =>
    refine readsAs_of_readScalar _ (by decide) (by decide) fun rest hrest => ?_
    exact readScalar_negative (readWord_of_digit _ hc).2 (h rest hrest)
      (Nat.lt_succ_of_lt (length_lt_append c cs rest))
  | false =>
    have hne : c ∉ ['-', ' ', '\t', '\n', '\r', '"', '[', ']', '{'] :=
      not_mem_of_digit hc (by decide)
    simp only [List.mem_cons, List.not_mem_nil, or_false, not_or] at hne
    refine readsAs_of_readScalar _ (by simp [isSpace, hne]) (by simp [hne]) fun rest hrest => ?_
    exact readScalar_number hne.1 (readWord_of_digit _ hc).1 (h rest hrest)
      (length_lt_append c cs rest)

/-- A written integer is read as itself. -/
private theorem readsAs_integer (n : Int) : ReadsAs (toString n).toList (.integer n) := by
  obtain ⟨c, cs, hdigits⟩ := List.exists_cons_of_ne_nil (isDigits_toDigits n.natAbs).1
  have hc : isAsciiDigit c = true := (isDigits_toDigits n.natAbs).2 c (by simp [hdigits])
  have hvalue : (if decide (n < 0) then -(n.natAbs : Int) else n.natAbs) = n := by
    by_cases hneg : n < 0
    · rw [if_pos (by simpa using hneg)]
      omega
    · rw [if_neg (by simpa using hneg)]
      omega
  have hnumber : ∀ rest, Stops rest →
      readNumber (decide (n < 0)) (c :: cs ++ rest) = some (.integer n, rest) := by
    intro rest hrest
    rw [← hdigits, readNumber_toDigits _ _ hrest, hvalue]
  have hread := readsAs_number (decide (n < 0)) hc hnumber
  rw [toList_toString, hdigits]
  simpa using hread

/-! ### Documents -/

/-- A document whose real numbers are read back as they are written. -/
inductive Readable : Json → Prop
  | null : Readable .null
  | boolean {b : Bool} : Readable (.boolean b)
  | integer {n : Int} : Readable (.integer n)
  | real {x : Floating} (h : ReadsAs (writeReal x).toList (.real x)) : Readable (.real x)
  | text {s : String} : Readable (.text s)
  | array {items : List Json} (h : ∀ j ∈ items, Readable j) : Readable (.array items)
  | object {fields : List (String × Json)} (h : ∀ f ∈ fields, Readable f.2) :
      Readable (.object fields)

/-- A document that is readable is read back as it was written. -/
theorem readsAs_writeAt {j : Json} (h : j.Readable) (depth : Nat) :
    ReadsAs (writeAt depth j).toList j := by
  match h with
  | .null =>
    rw [writeAt]
    exact readsAs_null
  | .boolean =>
    rw [writeAt]
    exact readsAs_boolean _
  | .integer =>
    rw [writeAt]
    exact readsAs_integer _
  | .real h =>
    rw [writeAt]
    exact h
  | .text =>
    rw [writeAt]
    exact readsAs_text _
  | .array h => exact readsAs_array depth fun j hj => readsAs_writeAt (h j hj) (depth + 1)
  | .object h => exact readsAs_object depth fun f hf => readsAs_writeAt (h f hf) (depth + 1)
termination_by structural h

/-- A document whose reals can be read is read back from its text. -/
theorem read?_write {j : Json} (h : j.Readable) : read? j.write = some j := by
  have hreads := readsAs_writeAt h 0
  have hread := hreads.reads [] stops_nil
  have hsolid := (hreads.head? []).1
  rw [List.append_nil] at hread hsolid
  rw [← skipSpace_eq_self hsolid] at hread
  obtain ⟨hless, hread⟩ := hread
  rw [read?, write, hread]
  rfl

end Json
end DialogScript
