import Stylesheet.Text.Class

/-!
# Backslash escapes

A backslash and up to six hexadecimal digits name a character by its code; one space behind the digits
may end them. A basic letter or digit that is named this way is written as itself. Every other escape
stays as it is, without the space that ended it.

A backslash that escapes nothing is superfluous and can be dropped.
-/

namespace Stylesheet.Text

/-- What has been changed about an escape. -/
inductive EscapeChange where
  /-- The digits named a letter or digit, which was written in place of the escape. -/
  | replaced (digits : String) (char : Char)
  /-- A backslash that escaped nothing was dropped. -/
  | dropped
deriving DecidableEq, Repr

/-- An escape as it is to be written. -/
structure Escape where
  /-- The text that stands for the escape. -/
  text : String
  /-- How many characters behind the backslash belong to the escape. -/
  length : Nat
  change : Option EscapeChange
deriving DecidableEq, Repr

namespace Escape

/-- The value of a hexadecimal digit. -/
def digitValue (c : Char) : Nat :=
  if c.isDigit then c.toNat - '0'.toNat else c.toLower.toNat - 'a'.toNat + 10

/-- The number that hexadecimal digits denote. -/
def codeOf (digits : List Char) : Nat := digits.foldl (fun n c => n * 16 + digitValue c) 0

/-- At most this many digits belong to an escape. -/
def maxDigits : Nat := 6

/-- The digits of an escape, from the characters behind its backslash. -/
def digitsOf (after : List Char) : List Char := (after.takeWhile Char.isHexDigit).take maxDigits

/-- Reads the escape whose backslash stands in front of `after`. The space behind the digits is taken
along, but for a kept escape whose digits would run into the next character. -/
def read (dropBackslash : Bool) (after : List Char) : Escape :=
  let digits := digitsOf after
  let behind := after.drop digits.length
  let char := Char.ofNat (codeOf digits)
  let named := char.isAlphanum
  let text :=
    if named then String.singleton char
    else if digits.isEmpty && behind.head? == some ' ' then "\\ "
    else "\\" ++ String.ofList digits
  let atSpace := behind.head?.any isSpace
  let runsOn := (behind.drop 1).head?.any Char.isHexDigit && !named
  let length := if atSpace && !runsOn then digits.length + 1 else digits.length
  if text == "\\" && dropBackslash && !(after.drop length).head?.any isTokenChar then
    { text := "", length, change := some .dropped }
  else
    { text, length
      change := if named then some (.replaced (String.ofList digits) char) else none }

end Escape

end Stylesheet.Text
