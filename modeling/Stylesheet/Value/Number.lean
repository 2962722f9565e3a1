import Stylesheet.Log
import Stylesheet.Keyword
import Stylesheet.Property.Known
import Stylesheet.Decimal.Literal
import Stylesheet.Decimal.Shortest

/-!
# Shortening numbers

A number is written in its shortest spelling, its unit in small letters. Zero needs no unit; a number
other than zero gets one where its property measures lengths.

On demand the unit itself is exchanged. Units form chains, each step of which multiplies by a fraction:
pixels, points, picas, centimetres, inches. Along the chain from its own unit a number takes the unit that
makes the text shortest, the earlier one where two are as short.
-/

namespace Stylesheet.Value

open Decimal

/-! ## Exchanging units -/

/-- A step of a chain of units: the next unit, and the fraction that leads to it. -/
structure Exchange where
  unit : String
  num : Nat
  den : Nat

/-- The steps from each unit on, up to the end of its chain. -/
def exchanges : String → List Exchange
  | "px" => [⟨"pt", 3, 4⟩, ⟨"pc", 1, 12⟩, ⟨"cm", 254, 600⟩, ⟨"in", 100, 254⟩]
  | "pt" => [⟨"pc", 1, 12⟩, ⟨"cm", 254, 600⟩, ⟨"in", 100, 254⟩]
  | "mm" => [⟨"pc", 60, 254⟩, ⟨"cm", 254, 600⟩, ⟨"in", 100, 254⟩]
  | "pc" => [⟨"cm", 254, 600⟩, ⟨"in", 100, 254⟩]
  | "cm" => [⟨"in", 100, 254⟩]
  | "hz" => [⟨"khz", 1, 1000⟩]
  | "grad" => [⟨"deg", 9, 10⟩]
  | "ms" => [⟨"s", 1, 1000⟩]
  | _ => []

/-- The value of digits in base ten. -/
def digitsValue (digits : List Char) : Nat :=
  digits.foldl (fun n c => n * 10 + (c.toNat - '0'.toNat)) 0

/-- The magnitude of a number, rounded to double precision. -/
def magnitudeOf (number : String) : Magnitude :=
  let (whole, fraction) := cutPoint (cutSign number.toList).2
  .ofRatio (digitsValue (whole ++ fraction)) (Decimal.tenPow fraction.length)

/-- Results of an exchange keep ten decimal places. -/
def placeFactor : Nat := Decimal.tenPow 10

/-- The text of a magnitude times a fraction, rounded to ten decimal places. -/
def scaledText (negative : Bool) (x : Magnitude) (num den : Nat) : String :=
  let rounded := ((((x.times num).dividedBy den).times placeFactor).round).dividedBy placeFactor
  compress ((if negative then "-" else "") ++ rounded.text)

/-- A number as written with its unit. -/
abbrev Measure := String × String

/-- The length of a number with its unit. -/
def measureLength (m : Measure) : Nat := m.1.utf8ByteSize + m.2.utf8ByteSize

/-- The shortest of a number and its exchanges along a chain. `num` and `den` are the fraction that leads
to the place of the chain reached so far. -/
def shortestExchange (negative : Bool) (x : Magnitude) :
    (num den : Nat) → Measure → List Exchange → Measure
  | _, _, best, [] => best
  | num, den, best, step :: steps =>
    let num := num * step.num
    let den := den * step.den
    let next := (scaledText negative x num den, step.unit)
    shortestExchange negative x num den
      (if measureLength next < measureLength best then next else best) steps

/-- A number in the unit of its chain that makes it shortest. -/
def exchangeUnit (number unit : String) : Measure :=
  shortestExchange (Text.startsWith number "-") (magnitudeOf number) 1 1 (compress number, unit)
    (exchanges unit)

/-! ## One number -/

/-- Reads a number with a known unit, in its shortest form, and says what changed. -/
def analyse (convert : Bool) (text : String) (line : Nat) : Option (Measure × List Message) :=
  if text == "0" then some (("0", ""), [])
  else
    match Numeric.ofText? text with
    | none => none
    | some numeric =>
      if !numeric.unit.isEmpty && !Keyword.isUnit numeric.unit then none
      else
        let unit := Text.lower numeric.unit
        let (number, best) :=
          if convert then exchangeUnit numeric.number unit else (compress numeric.number, unit)
        let messages : List Message :=
          if best != unit then
            [.info .number line s!"Optimised number: converted from '{text}' to '{number}{best}'"]
          else if number != numeric.number then
            [.info .number line s!"Optimised number: optimised from '{text}' to '{number}{best}'"]
          else []
        some ((number, best), messages)

/-- The unit a number of a property is written with, and what is to be said about it. -/
def settleUnit (property text number unit : String) (line : Nat) : String × List Message :=
  if number != "0" then
    if unit.isEmpty && Property.requiresUnit property then
      ("px", [.warn .number line s!"Fixed invalid number: added 'px' unit to '{text}'"])
    else (unit, [])
  else if !unit.isEmpty then
    ("", [.info .number line s!"Optimised number: removed unit '{unit}' from '{text}'"])
  else (unit, [])

/-! ## A part of a value -/

/-- The numbers of a part in their shortest form: `none` as soon as one of them is not a number. The
messages about the numbers in front of it are kept. -/
def shortenAll (convert : Bool) (property : String) (line : Nat) :
    List String → Option (List String) × List Message
  | [] => (some [], [])
  | text :: rest =>
    match analyse convert text line with
    | none => (none, [])
    | some ((number, unit), found) =>
      let (unit, settled) := settleUnit property text number unit line
      let (texts, messages) := shortenAll convert property line rest
      (texts.map ((number ++ unit) :: ·), found ++ settled ++ messages)

/-- A font size and a line height are put together by a slash; every other part is one number. -/
def numbersOf (property part : String) : List String :=
  if property == "font" then (part.toList.splitOn '/').map String.ofList else [part]

/-- One part of the value of a property with its numbers in their shortest form. A part that is not made
of numbers stays as it is. -/
def shortenNumber (convert : Bool) (property part : String) (line : Nat) : String × List Message :=
  let (texts, messages) := shortenAll convert property line (numbersOf property part)
  ((texts.map (Text.joinWith "/")).getD part, messages)

end Stylesheet.Value
