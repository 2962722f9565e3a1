/-!
# Values of declarations

A value is its text and whether it is marked important. The mark is kept apart from the text.
-/

namespace Stylesheet

/-- The value of a declaration. -/
structure Value where
  text : String
  /-- The value wins over later ones that are not important. -/
  important : Bool := false
deriving DecidableEq, Repr

/-- The value as it is written. -/
def Value.render (v : Value) : String := if v.important then v.text ++ "!important" else v.text

end Stylesheet
