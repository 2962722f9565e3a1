import Stylesheet.Shorthand.Group
import Stylesheet.Text.Blank
import Stylesheet.Text.Split

/-!
# Shorthands for the sides of a box, and for pairs

Five shorthands give a value to each of the four sides of a box: top, right, bottom and left. Where the
left value is missing it is that of the right, where the bottom value is missing it is that of the top,
and where the right value is missing it is that of the top, so that one word can do for four. Four more
shorthands give a value to each of a pair of properties.

`compress` leaves out every word that can be left out.
-/

namespace Stylesheet.Shorthand

/-- A shorthand with its longhands. -/
structure Group where
  shorthand : String
  longhands : List String
deriving DecidableEq, Repr

/-- The shorthands for the sides of a box: top, right, bottom, left. -/
def boxGroups : List Group :=
  [⟨"border-color",
      ["border-top-color", "border-right-color", "border-bottom-color", "border-left-color"]⟩,
    ⟨"border-style",
      ["border-top-style", "border-right-style", "border-bottom-style", "border-left-style"]⟩,
    ⟨"border-width",
      ["border-top-width", "border-right-width", "border-bottom-width", "border-left-width"]⟩,
    ⟨"margin", ["margin-top", "margin-right", "margin-bottom", "margin-left"]⟩,
    ⟨"padding", ["padding-top", "padding-right", "padding-bottom", "padding-left"]⟩]

/-- The shorthands for a pair. -/
def pairGroups : List Group :=
  [⟨"overflow", ["overflow-x", "overflow-y"]⟩, ⟨"pause", ["pause-before", "pause-after"]⟩,
    ⟨"rest", ["rest-before", "rest-after"]⟩, ⟨"cue", ["cue-before", "cue-after"]⟩]

/-! ## Leaving words out -/

/-- The words that cannot be left out. -/
def compressWords : List String → List String
  | [a, b, c, d] =>
    if a == b && a == c && a == d then [a]
    else if b == d && a == c then [a, b]
    else if b == d then [a, b, c]
    else [a, b, c, d]
  | [a, b, c] => if a == b && a == c then [a] else if a == c then [a, b] else [a, b, c]
  | [a, b] => if a == b then [a] else [a, b]
  | words => words

/-- The text of the words that cannot be left out. -/
def compressed (words : List String) : String := Text.joinWith " " (compressWords words)

/-- A value for the sides of a box with every word left out that can be. -/
def compress (text : String) : String := compressed (Text.words text)

/-- Drops white space at both ends. -/
def trimBlank (s : String) : String := String.ofList (Text.trimBoth Text.isBlank s.toList)

/-- A value for the corners of a box: one list of words, or two with a slash between them. -/
def compressRadius (text : String) : String :=
  let halves := (text.toList.splitOn '/').map String.ofList
  if halves.length ≤ 2 then Text.joinWith "/" (halves.map fun half => compress (trimBlank half))
  else text

/-! ## Dissolving -/

/-- The values of the four sides. -/
def sideWords : List String → Option (List String)
  | [a] => some [a, a, a, a]
  | [a, b] => some [a, b, a, b]
  | [a, b, c] => some [a, b, c, b]
  | [a, b, c, d] => some [a, b, c, d]
  | _ => none

/-- The longhands of a group with the values of its sides. -/
def Group.dissolve? (g : Group) (value : Value) : Option (List Declaration) :=
  (sideWords (Text.words value.text)).map fun words =>
    (g.longhands.zip words).map fun x => (x.1, { value with text := x.2 })

/-- The longhands of a box shorthand, for one to four words. -/
def dissolveBox? (property : String) (value : Value) : Option (List Declaration) :=
  (boxGroups.find? (·.shorthand == property)).bind (·.dissolve? value)

/-- Dissolves a box shorthand that stands beside one of its own longhands. -/
def dissolveBeside (d : Declarations) (g : Group) : Declarations :=
  if g.longhands.any d.contains then
    match (d.get? g.shorthand).bind g.dissolve? with
    | some longhands => dissolveInto d g.shorthand longhands
    | none => d
  else d

/-! ## Gathering -/

/-- The value that the longhands of a group add up to, if the shorthand is not there already, every
longhand is, they are equally important, and their texts can stand side by side. -/
def Group.gathered? (g : Group) (d : Declarations) : Option Value :=
  if d.contains g.shorthand then none
  else
    match allValues? d g.longhands with
    | none => none
    | some values =>
      match agreedImportance? values with
      | none => none
      | some important =>
        let texts := values.map (·.text)
        let allSame := texts.all fun t => some t == texts.head?
        if !allSame && texts.any isWhole then none else some ⟨compressed texts, important⟩

/-- Gathers the longhands of each group that can be gathered, and names the shorthands. -/
def gatherGroups : Declarations → List Group → Declarations × List String
  | d, [] => (d, [])
  | d, g :: groups =>
    match g.gathered? d with
    | some value =>
      let (d, names) := gatherGroups (gather d g.longhands g.shorthand value) groups
      (d, g.shorthand :: names)
    | none => gatherGroups d groups

/-- Leaves words out of the values of all box shorthands. -/
def compressBoxes (d : Declarations) : Declarations :=
  boxGroups.foldl (fun d g =>
    match d.get? g.shorthand with
    | some value => d.set g.shorthand { value with text := compress value.text }
    | none => d) d

/-- Leaves words out of the value for the corners. -/
def compressCorners (d : Declarations) : Declarations :=
  match d.get? "border-radius" with
  | some value => d.set "border-radius" { value with text := compressRadius value.text }
  | none => d

end Stylesheet.Shorthand
