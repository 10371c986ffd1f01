import DialogScript.Text.Quoted

/-!
# Characters in messages

How a message names a single character: the end of the source, a space, a line break and a tab
have names of their own, any other character without a visible form is named by its code point.
-/

namespace DialogScript.Text

/-- The name of a character in a message, `none` being the end of the source. -/
def visible : Option Char → String
  | none => "<EOF>"
  | some ' ' => "' '"
  | some '\n' => "\\n"
  | some '\t' => "\\t"
  | some c =>
    if isHidden c then "\\u" ++ String.ofList ((hexDigits 4 c.toNat).map Char.toUpper)
    else c.toString

end DialogScript.Text
