import Stylesheet.Document.Basic
import Stylesheet.Log

/-!
# Putting blocks of one name together

Among the children of a block, a block with the name of an earlier one is put into that one: its
declarations are read behind those of the earlier block, and what it holds follows. At-rules are merged
inside as well. Blocks that declare fonts are left alone.
-/

namespace Stylesheet.Selector

/-- What merging has come to. -/
structure Merging where
  document : Document
  /-- The first blocks of their names, in order. -/
  kept : List BlockId := []
  /-- The blocks that took over declarations of others. -/
  merged : List BlockId := []
  log : List Message := []

/-- The blocks have the same name and are of the same kind. -/
def sameName (b c : Block) : Bool := b.name == c.name && b.isSelector == c.isSelector

/-- Puts a block into an earlier one. What it holds moves along. -/
def moveInto (d : Document) (parent id target : BlockId) (b : Block) : Document :=
  let d := (d.detach parent id).vacate id
  d.modify target fun t =>
    { t with
      declarations := t.declarations.merge b.declarations
      children := t.children ++ b.children }

/-- Puts one child of a block into an earlier one of its name, if there is one. -/
def Merging.add (parent : BlockId) (m : Merging) (id : BlockId) : Merging :=
  match m.document.get? id with
  | none => m
  | some b =>
    if b.isFontFace then m
    else
      match m.kept.find? fun other => (m.document.get? other).any (sameName b) with
      | none => { m with kept := m.kept ++ [id] }
      | some target =>
        let name := b.name
        { m with
          document := moveInto m.document parent id target b
          merged :=
            if b.declarations.isEmpty || m.merged.contains target then m.merged
            else m.merged ++ [target]
          log := m.log ++ [.info .selectors 0 s!"Merged duplicate block '{name}'"] }

/-- Merges the children of a block by name, and then those of the at-rules among the blocks that are kept.
The bound on the depth is that of the document. -/
def mergeNamesFrom : Nat → Document → BlockId → Merging
  | 0, d, _ => { document := d }
  | depth + 1, d, parent =>
    let m := (d.childBlocks parent).foldl (Merging.add parent) { document := d }
    m.kept.foldl (fun m id =>
      if (m.document.get? id).any (·.isAtBlock) then
        let inner := mergeNamesFrom depth m.document id
        { m with
          document := inner.document, merged := m.merged ++ inner.merged, log := m.log ++ inner.log }
      else m) m

/-- Merges the children of a block by name: the document, the blocks that took over declarations, and what
is to be said about it. -/
def mergeNames (d : Document) (parent : BlockId) : Document × List BlockId × List Message :=
  let m := mergeNamesFrom d.maxDepth d parent
  (m.document, m.merged, m.log)

end Stylesheet.Selector
