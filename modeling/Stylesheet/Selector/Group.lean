import Stylesheet.Selector.Discard

/-!
# Grouping selectors with equal declarations

Among the children of a block, a selector with the same declarations as an earlier one joins the group of
that one: its name is put to the name of the group, and its own block goes, with the blocks inside it. On
demand only neighbours are grouped.
-/

namespace Stylesheet.Selector

/-- The declarations of a selector, if it has some. -/
def declarationsOf? (d : Document) (id : BlockId) : Option Declarations :=
  match d.get? id with
  | some b => if b.isSelector && !b.declarations.isEmpty then some b.declarations else none
  | none => none

/-- Removes a selector from the children of a block and puts its name to that of a group. -/
def joinGroup (d : Document) (parent group : BlockId) (b : Block) (id : BlockId) : Logged :=
  let d := (d.remove parent id).modify group fun g =>
    let g := g.addSelectors b.name b.fragments
    { g with children := g.children ++ b.children }
  let name := ((d.get? group).map (·.name)).getD ""
  (d, [.info .selectors 0 s!"Merged selectors with equal declarations into '{name}'"])

/-- Puts those of the blocks that have the given declarations into a group; with `adjacent`, those in front
of the first block that has others. -/
def gatherGroup (adjacent : Bool) (parent group : BlockId) (shared : Declarations) :
    Document → List BlockId → Logged
  | d, [] => (d, [])
  | d, id :: rest =>
    match d.get? id with
    | none => gatherGroup adjacent parent group shared d rest
    | some b =>
      if b.isSelector && b.declarations.sameAs shared then
        let (d, log) := joinGroup d parent group b id
        let (d, more) := gatherGroup adjacent parent group shared d rest
        (d, log ++ more)
      else if adjacent then (d, [])
      else gatherGroup adjacent parent group shared d rest

/-- Groups the selectors among the given children of a block. Children that have joined a group are
gone and are passed over. -/
def groupSiblings (adjacent : Bool) (parent : BlockId) : Document → List BlockId → Logged
  | d, [] => (d, [])
  | d, id :: rest =>
    match declarationsOf? d id with
    | none => groupSiblings adjacent parent d rest
    | some shared =>
      let (d, log) := gatherGroup adjacent parent id shared d rest
      let (d, more) := groupSiblings adjacent parent d rest
      (d, log ++ more)

/-- Groups the selectors among the children of a block, and among those of the at-rules that are its
children. The bound on the depth is that of the document. -/
def groupFrom (adjacent : Bool) : Nat → Document → BlockId → Logged
  | 0, d, _ => (d, [])
  | depth + 1, d, parent =>
    let (d, log) := groupSiblings adjacent parent d (d.childBlocks parent)
    (d.childBlocks parent).foldl (fun (acc : Logged) id =>
      let (d, log) := acc
      if (d.get? id).any (·.isAtBlock) then
        let (d, more) := groupFrom adjacent depth d id
        (d, log ++ more)
      else acc) (d, log)

/-- Groups the selectors below a block that have equal declarations. -/
def groupEqual (adjacent : Bool) (d : Document) (parent : BlockId) : Logged :=
  groupFrom adjacent d.maxDepth d parent

end Stylesheet.Selector
