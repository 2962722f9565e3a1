import Stylesheet.Log
import Stylesheet.Keyword
import Stylesheet.Property.Known

/-!
# Mending colors

The value of a color property is a color in hexadecimal with a number sign in front, a function, or a
word. A hexadecimal color without its number sign gets one; anything else is reported and kept.
-/

namespace Stylesheet.Value

/-- Three or six hexadecimal digits. -/
def isBareHex (s : String) : Bool :=
  (s.toList.length == 3 || s.toList.length == 6) && s.toList.all Char.isHexDigit

/-- One part of the value of a property with its color mended, and what is to be said about it. -/
def mendColor (property part : String) (line : Nat) : String × List Message :=
  if !Property.isColor property || Text.startsWith part "#" || Text.hasChar part '('
      || Keyword.isColor part then
    (part, [])
  else if isBareHex part then
    ("#" ++ part, [.info .color line s!"Fixed colour value: added '#' to '{part}'"])
  else
    (part, [.error .color line s!"Invalid colour value '{part}' for property '{property}'"])

end Stylesheet.Value
