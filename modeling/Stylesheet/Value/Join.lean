import Stylesheet.Text.Class

/-!
# Putting the parts of a value together

A value is read as a list of parts: words, and the marks `,` and `!`. A comma is glued to both of its
neighbours. An exclamation mark keeps the blank in front of it and is glued to the word behind it. Two
words are put apart by one blank.
-/

namespace Stylesheet.Value

/-- The value put together so far, and whether the next part is glued to it. -/
structure Joined where
  text : String
  glued : Bool

/-- Puts one more part to a value. -/
def Joined.add (j : Joined) (part : String) : Joined :=
  let spaced := if j.text.isEmpty || j.glued then j.text else j.text.push ' '
  if part.isEmpty then j
  else if part == "," then ⟨j.text.push ',', true⟩
  else if part == "!" then ⟨spaced.push '!', true⟩
  else ⟨spaced ++ part, false⟩

/-- The value with the given parts. -/
def joinParts (parts : List String) : String := (parts.foldl Joined.add ⟨"", false⟩).text

end Stylesheet.Value
