import Stylesheet.Declarations
import Stylesheet.Text.Class

/-!
# Shorthands and their longhands

A shorthand property sets several longhand properties at once. This module holds what all shorthands have
in common: a shorthand is *dissolved* into its longhands, and longhands are *gathered* into their
shorthand, and both keep to the order in which the declarations of the block take effect.

* A dissolved longhand stands where the shorthand stood. A longhand that the block sets behind the
  shorthand keeps its value, one in front of it is overridden, and an important value beats one that is
  not in either case.
* A gathered shorthand stands where the first of its longhands stood. The longhands have to be equally
  important.
-/

namespace Stylesheet.Shorthand

/-- A keyword that every property understands and that cannot be combined with other values. -/
def isWideKeyword (text : String) : Bool :=
  ["inherit", "initial", "unset", "revert", "revert-layer"].contains (Text.lower text)

/-- A text whose parts cannot be told: a keyword for every property, or a variable. -/
def isWhole (text : String) : Bool := isWideKeyword text || Text.occursIn "var(" text

/-- A text that contains a gradient. -/
def hasGradient (text : String) : Bool := Text.occursIn "gradient(" (Text.lower text)

/-! ## Dissolving -/

/-- Declarations into which longhands are being put, and the place for the next one. -/
structure Dissolving where
  declarations : Declarations
  place : Nat

/-- Puts one longhand of a dissolved shorthand into the declarations. -/
def Dissolving.add (s : Dissolving) (longhand : Declaration) : Dissolving :=
  let (name, value) := longhand
  let d := s.declarations
  if value.text.isEmpty then s
  else
    match d.position? name with
    | none => ⟨d.insertAt s.place name value, s.place + 1⟩
    | some pos =>
      let existingImportant := (d.get? name).any (·.important)
      if s.place ≤ pos then
        if existingImportant || !value.important then s
        else ⟨d.insertAt s.place name value, s.place + 1⟩
      else if existingImportant && !value.important then s
      else ⟨d.insertAt (s.place - 1) name value, s.place⟩

/-- Puts longhands in the place of their shorthand. -/
def dissolveInto (d : Declarations) (shorthand : String) (longhands : List Declaration) :
    Declarations :=
  match d.position? shorthand with
  | none => d
  | some place => (longhands.foldl Dissolving.add ⟨d.erase shorthand, place⟩).declarations

/-! ## Gathering -/

/-- The values of all the properties, if every one of them is there. -/
def allValues? (d : Declarations) (names : List String) : Option (List Value) :=
  names.mapM d.get?

/-- Whether the values are important, if they agree on it. -/
def agreedImportance? : List Value → Option Bool
  | [] => none
  | v :: rest => if rest.all (·.important == v.important) then some v.important else none

/-- The first place of one of the properties, or the end. -/
def firstPlace (d : Declarations) (names : List String) : Nat :=
  ((names.filterMap d.position?).min?).getD d.size

/-- Removes properties. -/
def eraseAll (d : Declarations) (names : List String) : Declarations :=
  names.foldl Declarations.erase d

/-- Puts a shorthand in the place of its longhands. -/
def gather (d : Declarations) (names : List String) (shorthand : String) (value : Value) :
    Declarations :=
  (eraseAll d names).insertAt (firstPlace d names) shorthand value

end Stylesheet.Shorthand
