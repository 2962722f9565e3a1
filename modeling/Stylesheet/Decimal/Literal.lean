import Stylesheet.Text.Class

/-!
# Decimal literals

A number is written as an optional minus sign and digits, of which a fraction may be split off by a
point; the digits in front of the point may be missing. A *numeric* is such a number with a unit behind
it: nothing, a percent sign, or letters.

`compress` writes a number as short as the grammar allows: without zeros in front of the whole part and
behind the fraction, and zero itself as `0`.
-/

namespace Stylesheet.Decimal

/-- A number with a unit, both as written. -/
structure Numeric where
  number : String
  /-- Empty where no unit is written. -/
  unit : String
deriving DecidableEq, Repr

/-- Cuts a minus sign off. -/
def cutSign : List Char → List Char × List Char
  | '-' :: s => (['-'], s)
  | s => ([], s)

/-- The longest number at the start of a text, and what follows it. -/
def readNumber (s : List Char) : Option (List Char × List Char) :=
  let (sign, body) := cutSign s
  let whole := body.takeWhile Char.isDigit
  let rest := body.dropWhile Char.isDigit
  let bare := if whole.isEmpty then none else some (sign ++ whole, rest)
  match rest with
  | '.' :: t =>
    let fraction := t.takeWhile Char.isDigit
    if fraction.isEmpty then bare
    else some (sign ++ whole ++ '.' :: fraction, t.dropWhile Char.isDigit)
  | _ => bare

/-- A text that can stand behind a number as its unit. -/
def isUnitText (s : List Char) : Bool := s == ['%'] || s.all Text.isLetter

/-- Reads a text that is a number and a unit and nothing else. -/
def Numeric.ofText? (s : String) : Option Numeric :=
  match readNumber s.toList with
  | some (number, unit) =>
    if isUnitText unit then some ⟨String.ofList number, String.ofList unit⟩ else none
  | none => none

/-! ## The shortest spelling -/

/-- The digits in front of the point and those behind it. -/
def cutPoint (s : List Char) : List Char × List Char :=
  (s.takeWhile (· != '.'), (s.dropWhile (· != '.')).drop 1)

/-- Drops zeros at the end. -/
def dropLastZeros (s : List Char) : List Char := (s.reverse.dropWhile (· == '0')).reverse

/-- The shortest spelling of a number. -/
def compressChars (s : List Char) : List Char :=
  let (sign, body) := cutSign s
  let (whole, fraction) := cutPoint body
  let whole := whole.dropWhile (· == '0')
  let fraction := dropLastZeros fraction
  if whole.isEmpty && fraction.isEmpty then ['0']
  else sign ++ whole ++ (if fraction.isEmpty then [] else '.' :: fraction)

/-- The shortest spelling of a number. -/
def compress (s : String) : String := String.ofList (compressChars s.toList)

end Stylesheet.Decimal
