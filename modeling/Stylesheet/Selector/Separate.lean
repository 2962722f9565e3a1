import Stylesheet.Document.Basic

/-!
# Taking groups of selectors apart

A selector with several fragments is replaced, where it stands, by one block for each fragment with the same
declarations. What else it holds stays with the first of them.
-/

namespace Stylesheet.Selector

/-- The blocks that a selector is taken apart into. -/
def separated (b : Block) : List Block :=
  b.fragments.zipIdx.map fun (fragment, i) =>
    { name := fragment
      kind := .selector [fragment]
      declarations := b.declarations
      children := if i = 0 then b.children else [] }

/-- Puts blocks side by side between the children of a block. -/
def insertBlocks (parent : BlockId) : Nat → Document → List Block → Document
  | _, d, [] => d
  | i, d, b :: rest => insertBlocks parent (i + 1) (d.insertBlockAt parent i b) rest

/-- Takes one child of a block apart, if it is a group. -/
def separateChild (d : Document) (parent id : BlockId) (b : Block) : Document :=
  if b.fragments.length ≤ 1 then d
  else
    match ((d.get? parent).map (·.children)).bind (·.findIdx? (· == .block id)) with
    | none => d
    | some i => insertBlocks parent i (d.remove parent id) (separated b)

/-- Takes the groups among the children of a block apart, and those in the at-rules that are its children.
The bound on the depth is that of the document. -/
def separateFrom : Nat → Document → BlockId → Document
  | 0, d, _ => d
  | depth + 1, d, parent =>
    (d.childBlocks parent).foldl (fun d id =>
      match d.get? id with
      | none => d
      | some b => if b.isAtBlock then separateFrom depth d id else separateChild d parent id b) d

/-- Takes groups of selectors below a block apart. -/
def separate (d : Document) (parent : BlockId) : Document := separateFrom d.maxDepth d parent

end Stylesheet.Selector
