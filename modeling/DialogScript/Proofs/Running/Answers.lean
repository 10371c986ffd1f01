import DialogScript.CommandLine.Conversation
import DialogScript.Proofs.Numerals
import DialogScript.Proofs.Running.Requests

/-!
# Typed answers

Which typed lines answer a request is said twice: once where a line is read as a value
(`readAnswer?`), and once where the request takes the value (`Request.give`). The two agree: a value
that a line stands for is of the type the request asks for, and only an integer that does not fit in
32 bits is refused (`give_of_readAnswer?`). So a request that is asked takes the first line that
answers it (`InputType.Answers`), with one complaint about every line before
(`Request.ask_takes_first`).

How many digits are read as a whole number is bounded. A whole number beyond the bound is no integer
that is out of range but a real number, most often an infinity, and as such it answers a request.
-/

namespace DialogScript

/-- A line without the blanks around it. -/
def typedWord (line : String) : String := String.ofList (Text.trim Text.isBlank line.toList)

/-- A line answers a request of a type with a value. Where a line can be read in several ways, a
whole number comes first, then any number, a truth value, and the line itself. A whole number with
more digits than can be read is not read as one. -/
inductive InputType.Answers (digits : DigitLimit) : InputType → String → Value → Prop
  | text (line : String) : Answers digits .text line (.text line)
  | integer {type : InputType} {line : String} {n : Int} (htype : type = .any ∨ type = .number)
      (hdigits : digits.Admits (Numeral.leadingDigits (typedWord line)))
      (hword : Numeral.readInteger? (typedWord line) = some n)
      (hrange : -2147483648 ≤ n ∧ n ≤ 2147483647) : Answers digits type line (.ofInt n)
  | float {type : InputType} {line : String} {x : Floating} (htype : type = .any ∨ type = .number)
      (hinteger : ¬digits.Admits (Numeral.leadingDigits (typedWord line)) ∨
        Numeral.readInteger? (typedWord line) = none)
      (hword : Numeral.readReal? (typedWord line) = some x) :
      Answers digits type line (.ofFloating x)
  | boolean {type : InputType} {line : String} {b : Bool}
      (htype : type = .any ∧ typedNumber? (typedWord line) digits = none ∨ type = .boolean)
      (hword : String.ofList ((typedWord line).toList.map Char.toLower) = toString b) :
      Answers digits type line (.boolean b)
  | line {line : String} (hnumber : typedNumber? (typedWord line) digits = none)
      (hboolean : typedBoolean? (typedWord line) = none) : Answers digits .any line (.text line)

variable {digits : DigitLimit} {type : InputType} {line : String} {host : HostValue} {v : Value}
  {r : Request}

/-! ### What a line stands for -/

/-- A word that is no whole number, or too long a one, stands for the real number it can be read
as. -/
theorem typedNumber?_eq_some_iff {word : String} :
    typedNumber? word digits = some host ↔
      (∃ n, digits.Admits (Numeral.leadingDigits word) ∧ Numeral.readInteger? word = some n ∧
          host = .integer n) ∨
        ∃ x, (¬digits.Admits (Numeral.leadingDigits word) ∨ Numeral.readInteger? word = none) ∧
          Numeral.readReal? word = some x ∧ host = .real x := by
  unfold typedNumber?
  cases hread : Numeral.readInteger word digits with
  | ok n =>
    obtain ⟨hshort, hword⟩ := Numeral.readInteger_eq_ok_iff.mp hread
    simp [hshort, hword, eq_comm]
  | error fault =>
    have hnone : ¬digits.Admits (Numeral.leadingDigits word) ∨
        Numeral.readInteger? word = none := by
      by_contra hsome
      rw [not_or, not_not, ← ne_eq, Option.ne_none_iff_exists'] at hsome
      obtain ⟨hshort, n, hn⟩ := hsome
      rw [Numeral.readInteger_eq_ok_iff.mpr ⟨hshort, hn⟩] at hread
      cases hread
    have hinteger : ¬∃ n, digits.Admits (Numeral.leadingDigits word) ∧
        Numeral.readInteger? word = some n ∧ host = .integer n := by
      rintro ⟨n, hshort, hn, -⟩
      rcases hnone with hlong | hnone
      · exact hlong hshort
      · rw [hnone] at hn
        cases hn
    constructor
    · intro h
      obtain ⟨x, hx, rfl⟩ := Option.map_eq_some_iff.mp h
      exact .inr ⟨x, hnone, hx, rfl⟩
    · rintro (h | ⟨x, -, hx, rfl⟩)
      · exact absurd h hinteger
      · exact Option.map_eq_some_iff.mpr ⟨x, hx, rfl⟩

private theorem typedBoolean?_eq_some_iff {word : String} :
    typedBoolean? word = some host ↔
      ∃ b : Bool, String.ofList (word.toList.map Char.toLower) = toString b ∧
        host = .boolean b := by
  unfold typedBoolean?
  split
  · rename_i hword
    rw [hword]
    constructor
    · intro h
      exact ⟨true, rfl, (Option.some.inj h).symm⟩
    · rintro ⟨b, hb, rfl⟩
      cases b with
      | true => rfl
      | false => exact absurd hb (by decide)
  · rename_i hword
    rw [hword]
    constructor
    · intro h
      exact ⟨false, rfl, (Option.some.inj h).symm⟩
    · rintro ⟨b, hb, rfl⟩
      cases b with
      | true => exact absurd hb (by decide)
      | false => rfl
  · rename_i htrue hfalse
    refine ⟨fun h => (Option.some_ne_none _ h.symm).elim, ?_⟩
    rintro ⟨b, hb, -⟩
    cases b with
    | true => exact absurd hb htrue
    | false => exact absurd hb hfalse

private theorem readAnswer?_number (line : String) (digits : DigitLimit) :
    readAnswer? .number line digits = typedNumber? (typedWord line) digits := rfl

private theorem readAnswer?_boolean (line : String) (digits : DigitLimit) :
    readAnswer? .boolean line digits = typedBoolean? (typedWord line) := rfl

/-- What a line for any value stands for, in order. -/
theorem readAnswer?_any_cases (h : readAnswer? .any line digits = some host) :
    typedNumber? (typedWord line) digits = some host ∨
      typedNumber? (typedWord line) digits = none ∧ typedBoolean? (typedWord line) = some host ∨
        typedNumber? (typedWord line) digits = none ∧ typedBoolean? (typedWord line) = none ∧
          host = .text line := by
  simp only [readAnswer?] at h
  split at h
  · rename_i hnumber
    exact .inl (hnumber.trans h)
  · rename_i hnumber
    split at h
    · rename_i hboolean
      exact .inr (.inl ⟨hnumber, hboolean.trans h⟩)
    · rename_i hboolean
      exact .inr (.inr ⟨hnumber, hboolean, (Option.some.inj h).symm⟩)

/-- What a line stands for is of a type that was asked for. -/
theorem admits_of_readAnswer? (h : readAnswer? type line digits = some host) :
    (∃ n, host = .integer n ∧ type.admits .integer = true) ∨
      (∃ x, host = .real x ∧ type.admits .float = true) ∨
        (∃ b, host = .boolean b ∧ type.admits .boolean = true) ∨
          ∃ s, host = .text s ∧ type.admits .text = true := by
  cases type with
  | any =>
    rcases readAnswer?_any_cases h with h | ⟨-, h⟩ | ⟨-, -, rfl⟩
    · rcases typedNumber?_eq_some_iff.mp h with ⟨n, -, -, rfl⟩ | ⟨x, -, -, rfl⟩
      · exact .inl ⟨n, rfl, rfl⟩
      · exact .inr (.inl ⟨x, rfl, rfl⟩)
    · obtain ⟨b, -, rfl⟩ := typedBoolean?_eq_some_iff.mp h
      exact .inr (.inr (.inl ⟨b, rfl, rfl⟩))
    · exact .inr (.inr (.inr ⟨line, rfl, rfl⟩))
  | number =>
    rcases typedNumber?_eq_some_iff.mp ((readAnswer?_number line digits).symm.trans h) with
      ⟨n, -, -, rfl⟩ | ⟨x, -, -, rfl⟩
    · exact .inl ⟨n, rfl, rfl⟩
    · exact .inr (.inl ⟨x, rfl, rfl⟩)
  | text => exact .inr (.inr (.inr ⟨line, (Option.some.inj h).symm, rfl⟩))
  | boolean =>
    obtain ⟨b, -, rfl⟩ :=
      typedBoolean?_eq_some_iff.mp ((readAnswer?_boolean line digits).symm.trans h)
    exact .inr (.inr (.inl ⟨b, rfl, rfl⟩))

/-- A request accepts what a line stands for, unless that is an integer out of range. -/
theorem accept?_of_readAnswer? (h : readAnswer? type line digits = some host) :
    type.accept? host = host.toValue.toOption ∧
      ∀ e, host.toValue = .error e → ∃ n, host = .integer n ∧ e = .integerRange n := by
  rcases admits_of_readAnswer? h with
    ⟨n, rfl, hadmits⟩ | ⟨x, rfl, hadmits⟩ | ⟨b, rfl, hadmits⟩ | ⟨s, rfl, hadmits⟩
  · simp only [InputType.accept?, HostValue.toValue, Value.ofInteger]
    split
    · exact ⟨if_pos hadmits, fun _ he => nomatch he⟩
    · exact ⟨rfl, fun e he => ⟨n, rfl, (Except.error.inj he).symm⟩⟩
  · exact ⟨if_pos hadmits, fun _ he => nomatch he⟩
  · exact ⟨if_pos hadmits, fun _ he => nomatch he⟩
  · exact ⟨if_pos hadmits, fun _ he => nomatch he⟩

private theorem readAnswer?_of_number (htype : type = .any ∨ type = .number)
    (h : typedNumber? (typedWord line) digits = some host) :
    readAnswer? type line digits = some host := by
  rcases htype with rfl | rfl
  · simp only [readAnswer?]
    rw [← typedWord, h]
  · exact h

/-- A line answers a request if it stands for a value that can be converted. -/
theorem answers_iff :
    type.Answers digits line v ↔
      ∃ host, readAnswer? type line digits = some host ∧ host.toValue = .ok v := by
  constructor
  · intro h
    cases h with
    | text => exact ⟨.text line, rfl, rfl⟩
    | @integer _ _ n htype hdigits hword hrange =>
      refine ⟨.integer n, readAnswer?_of_number htype ?_, ?_⟩
      · exact typedNumber?_eq_some_iff.mpr (.inl ⟨n, hdigits, hword, rfl⟩)
      · rw [HostValue.toValue, Value.ofInteger, if_pos hrange]
    | @float _ _ x htype hinteger hword =>
      refine ⟨.real x, readAnswer?_of_number htype ?_, rfl⟩
      exact typedNumber?_eq_some_iff.mpr (.inr ⟨x, hinteger, hword, rfl⟩)
    | @boolean _ _ b htype hword =>
      have hboolean := typedBoolean?_eq_some_iff.mpr ⟨b, hword, rfl⟩
      refine ⟨.boolean b, ?_, rfl⟩
      rcases htype with ⟨rfl, hnumber⟩ | rfl
      · simp only [readAnswer?]
        rw [← typedWord, hnumber, hboolean]
      · exact hboolean
    | line hnumber hboolean =>
      refine ⟨.text line, ?_, rfl⟩
      simp only [readAnswer?]
      rw [← typedWord, hnumber, hboolean]
  · rintro ⟨host, hread, hvalue⟩
    have hnumber {type : InputType} (htype : type = .any ∨ type = .number)
        (h : typedNumber? (typedWord line) digits = some host) : type.Answers digits line v := by
      rcases typedNumber?_eq_some_iff.mp h with ⟨n, hdigits, hn, rfl⟩ | ⟨x, hn, hx, rfl⟩
      · rw [HostValue.toValue, Value.ofInteger] at hvalue
        split at hvalue
        · rename_i hrange
          obtain rfl := Except.ok.inj hvalue
          exact .integer htype hdigits hn hrange
        · cases hvalue
      · obtain rfl := Except.ok.inj hvalue
        exact .float htype hn hx
    cases type with
    | any =>
      rcases readAnswer?_any_cases hread with h | ⟨hnone, h⟩ | ⟨hnone, hnone', rfl⟩
      · exact hnumber (.inl rfl) h
      · obtain ⟨b, hb, rfl⟩ := typedBoolean?_eq_some_iff.mp h
        obtain rfl := Except.ok.inj hvalue
        exact .boolean (.inl ⟨rfl, hnone⟩) hb
      · obtain rfl := Except.ok.inj hvalue
        exact .line hnone hnone'
    | number => exact hnumber (.inr rfl) hread
    | text =>
      obtain rfl := Option.some.inj hread
      obtain rfl := Except.ok.inj hvalue
      exact .text line
    | boolean =>
      rw [readAnswer?_boolean] at hread
      obtain ⟨b, hb, rfl⟩ := typedBoolean?_eq_some_iff.mp hread
      obtain rfl := Except.ok.inj hvalue
      exact .boolean (.inr rfl) hb

/-! ### Asking -/

namespace Request

/-- What is wrong with a line that does not answer a request: it stands for an integer that does
not fit in 32 bits, or for no value of the type. -/
def objection (digits : DigitLimit) (r : Request) (line : String) : AnswerError :=
  match readAnswer? r.type line digits with
  | some (.integer n) => .refused ⟨.inputUnusable r.name (.integerRange n), r.span⟩
  | _ => .unreadable r.type.word

/-- A line that answers a waiting request gives it its value. -/
theorem hear_of_answers (hr : r.result = none) (h : r.type.Answers digits line v) :
    r.hear line digits = .ok { r with result := some v } := by
  obtain ⟨host, hread, hvalue⟩ := answers_iff.mp h
  have haccept : r.type.accept? host = some v := by
    rw [(accept?_of_readAnswer? hread).1, hvalue]
    rfl
  rw [hear, hread]
  dsimp only
  rw [give_of_accepted hr haccept]

/-- Every other line is complained about. -/
theorem hear_of_not_answers (hr : r.result = none) (h : ∀ v, ¬r.type.Answers digits line v) :
    r.hear line digits = .error (r.objection digits line) := by
  rw [hear, objection]
  cases hread : readAnswer? r.type line digits with
  | none => rfl
  | some host =>
    cases hvalue : host.toValue with
    | ok v => exact absurd (answers_iff.mpr ⟨host, hread, hvalue⟩) (h v)
    | error e =>
      -- Of all that a line can stand for only an integer has a range.
      obtain ⟨hnone, hinteger⟩ := accept?_of_readAnswer? hread
      obtain ⟨n, rfl, rfl⟩ := hinteger e hvalue
      have haccept : r.type.accept? (.integer n) = none := by
        rw [hnone, hvalue]
        rfl
      dsimp only
      rw [give_of_refused hr haccept, refusal, hvalue]

/-- A request that is asked takes the first line that answers it and leaves the lines behind it;
the lines before are complained about. Without such a line it runs out of lines. -/
inductive TakesFirst (digits : DigitLimit) (r : Request) : List String → Asked → Prop
  | answered {before rest : List String} {line : String} {v : Value}
      (hbefore : ∀ l ∈ before, ∀ w, ¬r.type.Answers digits l w)
      (hline : r.type.Answers digits line v) :
      TakesFirst digits r (before ++ line :: rest)
        ⟨before.map (r.objection digits), some ({ r with result := some v }, rest)⟩
  | unanswered {lines : List String} (h : ∀ l ∈ lines, ∀ w, ¬r.type.Answers digits l w) :
      TakesFirst digits r lines ⟨lines.map (r.objection digits), none⟩

/-- One more line in front that does not answer the request is one more complaint. -/
theorem TakesFirst.cons {lines : List String} {a : Asked} (h : TakesFirst digits r lines a)
    (hline : ∀ w, ¬r.type.Answers digits line w) :
    TakesFirst digits r (line :: lines) ⟨r.objection digits line :: a.refusals, a.answered⟩ := by
  cases h with
  | answered hbefore hlast =>
    have hbefore' := List.forall_mem_cons.mpr ⟨hline, hbefore⟩
    exact @TakesFirst.answered digits r (line :: _) _ _ _ hbefore' hlast
  | unanswered h =>
    exact @TakesFirst.unanswered digits r (line :: _) (List.forall_mem_cons.mpr ⟨hline, h⟩)

private theorem takesFirst_ask (hr : r.result = none) (lines : List String) :
    TakesFirst digits r lines (r.ask lines digits) := by
  induction lines with
  | nil => exact .unanswered (List.forall_mem_nil _)
  | cons line rest ih =>
    rw [ask]
    by_cases h : ∃ v, r.type.Answers digits line v
    · obtain ⟨v, hv⟩ := h
      rw [hear_of_answers hr hv]
      exact @TakesFirst.answered digits r [] rest line v (List.forall_mem_nil _) hv
    · rw [not_exists] at h
      rw [hear_of_not_answers hr h]
      exact ih.cons h

/-- On the channel for errors there is one complaint about every line that was refused. -/
theorem complained_said (a : Asked) (prompt : String) :
    Utterance.complained (a.said prompt)
      = String.join (a.refusals.map fun e => "Invalid input: " ++ e.message ++ "\n") := by
  unfold Asked.said Utterance.complained
  induction a.refusals with
  | nil => rfl
  | cons e refusals ih =>
    simp only [List.flatMap_cons, List.cons_append, List.nil_append, List.map_cons,
      String.join_cons, String.empty_append]
    rw [ih]
    rfl

/-- The prompt is printed for every line that was refused, and once more. -/
theorem printed_said (a : Asked) (prompt : String) :
    Utterance.printed (a.said prompt)
      = String.join (List.replicate (a.refusals.length + 1) prompt) := by
  unfold Asked.said Utterance.printed
  induction a.refusals with
  | nil => rfl
  | cons e refusals ih =>
    simp only [List.flatMap_cons, List.cons_append, List.nil_append, List.map_cons,
      String.join_cons, String.empty_append, List.length_cons]
    rw [ih, List.replicate_succ (n := refusals.length + 1), String.join_cons]

/-- A fresh request accepts what a line stands for, unless it is an integer out of range. -/
theorem give_of_readAnswer? (hr : r.result = none)
    (h : readAnswer? r.type line digits = some host) :
    (∃ v, host.toValue = .ok v ∧ r.give host = .ok { r with result := some v }) ↔
      ∀ n, host = .integer n → -2147483648 ≤ n ∧ n ≤ 2147483647 := by
  obtain ⟨haccept, hinteger⟩ := accept?_of_readAnswer? h
  constructor
  · rintro ⟨v, hv, -⟩ n rfl
    rw [HostValue.toValue, Value.ofInteger] at hv
    by_contra hrange
    rw [if_neg hrange] at hv
    cases hv
  · intro hrange
    cases hvalue : host.toValue with
    | ok v =>
      refine ⟨v, rfl, give_of_accepted hr ?_⟩
      rw [haccept, hvalue]
      rfl
    | error e =>
      obtain ⟨n, rfl, rfl⟩ := hinteger e hvalue
      rw [HostValue.toValue, Value.ofInteger, if_pos (hrange n rfl)] at hvalue
      cases hvalue

/-- A fresh request takes the first line that answers it, however many digits can be read as a whole
number. Every line before it is complained about once, and the prompt is printed for every line that
is read. What a line stands for is accepted unless it is an integer that does not fit in 32 bits. -/
theorem ask_takes_first (name : String) (type : InputType) (span : Span) (lines : List String)
    (digits : DigitLimit) :
    TakesFirst digits (fresh name type span) lines ((fresh name type span).ask lines digits) ∧
      Utterance.complained (((fresh name type span).ask lines digits).said (name ++ "? "))
        = String.join (((fresh name type span).ask lines digits).refusals.map fun e =>
            "Invalid input: " ++ e.message ++ "\n") ∧
      Utterance.printed (((fresh name type span).ask lines digits).said (name ++ "? "))
        = String.join
            (List.replicate (((fresh name type span).ask lines digits).refusals.length + 1)
              (name ++ "? ")) ∧
      ∀ line host, readAnswer? type line digits = some host →
        ((∃ v, host.toValue = .ok v ∧
            (fresh name type span).give host = .ok { fresh name type span with result := some v }) ↔
          ∀ n, host = .integer n → -2147483648 ≤ n ∧ n ≤ 2147483647) := by
  exact ⟨takesFirst_ask rfl lines, complained_said _ _, printed_said _ _,
    fun line host hread => give_of_readAnswer? rfl hread⟩

/-- A text and a number that is too large are refused, then a number with blanks around it is
taken. -/
theorem ask_takes_first_number :
    readAnswer? .number " +1_000\t" .standard = some (.integer 1000) ∧
      (∃ v, (fresh "n" .number default).give (.integer 1000)
        = .ok { fresh "n" .number default with result := some v }) ∧
      TakesFirst .standard (fresh "n" .number default) ["one", "99999999999", " +1_000\t", "2"]
        ((fresh "n" .number default).ask ["one", "99999999999", " +1_000\t", "2"] .standard) := by
  obtain ⟨htakes, -, -, haccepts⟩ := ask_takes_first "n" .number default
    ["one", "99999999999", " +1_000\t", "2"] .standard
  have hread : readAnswer? .number " +1_000\t" .standard = some (.integer 1000) := by
    decide +kernel
  obtain ⟨v, -, hv⟩ := (haccepts _ _ hread).mpr fun n hn => by
    obtain rfl := HostValue.integer.inj hn
    decide
  exact ⟨hread, ⟨v, hv⟩, htakes⟩

end Request

end DialogScript
