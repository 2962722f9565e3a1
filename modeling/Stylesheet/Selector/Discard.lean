import Stylesheet.Document.Basic
import Stylesheet.Log
import Stylesheet.Selector.Valid

/-!
# Discarding malformed selectors

The blocks of malformed selectors are removed from a block and from the at-rules below it.
-/

namespace Stylesheet.Selector

/-- A document with the messages about what has been done to it. -/
abbrev Logged := Document × List Message

/-- Removes the children of a block that are malformed selectors, and those of the at-rules among its
children. The bound on the depth is that of the document. -/
def discardFrom : Nat → Document → BlockId → Logged
  | 0, d, _ => (d, [])
  | depth + 1, d, parent =>
    (d.childBlocks parent).foldl (fun (acc : Logged) id =>
      let (d, log) := acc
      match d.get? id with
      | none => acc
      | some b =>
        if b.isAtBlock then
          let (d, more) := discardFrom depth d id
          (d, log ++ more)
        else if isValid b.name then acc
        else
          let name := b.name
          (d.remove parent id,
            log ++ [.warn .selectors 0 s!"Removed invalid selector: {name}"])) (d, [])

/-- Removes malformed selectors from a block and from the at-rules below it. -/
def discardInvalid (d : Document) (parent : BlockId) : Logged := discardFrom d.maxDepth d parent

end Stylesheet.Selector
