import Stylesheet.Options
import Stylesheet.Selector.Group
import Stylesheet.Selector.MergeNames
import Stylesheet.Selector.Separate

/-!
# Arranging the selectors of a document

Malformed selectors go first, if they are to go at all. Then the selectors are taken apart, grouped or merged
as the options say.
-/

namespace Stylesheet.Selector

/-- A document whose selectors have been arranged. -/
structure Arranged where
  document : Document
  /-- The blocks that took over declarations of others; some may be gone again. -/
  merged : List BlockId := []
  log : List Message := []

/-- Arranges the selectors of a document. -/
def arrange (mode : SelectorMerge) (discard : Bool) (d : Document) : Arranged :=
  let root := Document.root
  let (d, discarded) := if discard then discardInvalid d root else (d, [])
  match mode with
  | .off => { document := d, log := discarded }
  | .separate => { document := separate d root, log := discarded }
  | .adjacent =>
    let (d, grouped) := groupEqual true d root
    { document := d, log := discarded ++ grouped }
  | .all =>
    let (d, merged, names) := mergeNames d root
    let (d, grouped) := groupEqual false d root
    { document := d, merged, log := discarded ++ names ++ grouped }

end Stylesheet.Selector
