import Stylesheet.Shorthand.Font
import Stylesheet.Shorthand.Background
import Stylesheet.Log
import Stylesheet.Options

/-!
# Shorthands of a block

The shorthands of a block are first dissolved where they stand beside their own longhands, then longhands
are gathered wherever that is possible, and at last words that can be left out are left out. `font` and
`background` are dissolved and gathered anew in any case, if the level asks for it.
-/

namespace Stylesheet.Shorthand

/-- Dissolves a shorthand, if its value can be dissolved. -/
def dissolveWith (dissolve? : Value → Option (List Declaration)) (shorthand : String)
    (d : Declarations) : Declarations :=
  match (d.get? shorthand).bind dissolve? with
  | some longhands => dissolveInto d shorthand longhands
  | none => d

/-- Dissolves what the level asks for. -/
def dissolveAll (level : ShorthandLevel) (d : Declarations) : Declarations :=
  let d := if level.includes .font then dissolveWith dissolveFont? "font" d else d
  let d :=
    if level.includes .background then dissolveWith dissolveBackground? "background" d else d
  boxGroups.foldl dissolveBeside d

/-- The message about a shorthand that was gathered. -/
def gatheredMessage (shorthand : String) : Message :=
  .info .shorthand 0 s!"Merged longhands into '{shorthand}'"

/-- Gathers a shorthand, if the level asks for it and it can be gathered. -/
def gatherWith (wanted : Bool) (gather? : Declarations → Option Declarations) (shorthand : String)
    (d : Declarations) : Declarations × List Message :=
  if wanted then
    match gather? d with
    | some gathered => (gathered, [gatheredMessage shorthand])
    | none => (d, [])
  else (d, [])

/-- The declarations of a block with their shorthands in order, and what is to be said about it. -/
def tidyBlock (level : ShorthandLevel) (d : Declarations) : Declarations × List Message :=
  if level == .off || d.isEmpty then (d, [])
  else
    let (d, names) := gatherGroups (dissolveAll level d) (boxGroups ++ pairGroups)
    let d := compressCorners (compressBoxes d)
    let (d, font) := gatherWith (level.includes .font) gatherFont? "font" d
    let (d, background) :=
      gatherWith (level.includes .background) gatherBackground? "background" d
    (d, names.map gatheredMessage ++ font ++ background)

end Stylesheet.Shorthand
