import Stylesheet.Document.Basic
import Stylesheet.Options

/-!
# Writing a document

There are two layouts. The shortest one writes no space that can be left out. The other one writes one
declaration a line, indented by two blanks for each block around it, with an empty line between blocks.

The rules about the document as a whole come first, in a fixed order, then the tree. Blocks in which nothing
is left to write are left out. Where the layout of the source is kept, the stream of what was read is written
instead of the tree.
-/

namespace Stylesheet

/-- How a document is written. -/
structure Layout where
  /-- One declaration a line. -/
  spacious : Bool
  comments : Bool

namespace Layout

/-- The layout that the options ask for. -/
def ofOptions (o : Options) : Layout :=
  { spacious := o.template == .standard, comments := o.preserveComments }

def indent (l : Layout) (depth : Nat) : String :=
  if l.spacious then String.ofList (List.replicate (2 * depth) ' ') else ""

def newline (l : Layout) : String := if l.spacious then "\n" else ""

def space (l : Layout) : String := if l.spacious then " " else ""

/-- One of the rules about the document as a whole for each line. -/
def headerLines (d : Document) : List String :=
  (d.charset.toList.map fun charset => "@charset " ++ charset ++ ";")
    ++ d.imports.map LineAt.render
    ++ d.namespaces.map fun value => "@namespace " ++ value ++ ";"

/-- The rules about the document as a whole. -/
def header (l : Layout) (d : Document) : String :=
  String.join ((headerLines d).map (· ++ l.newline))

/-! ## The tree -/

/-- The declarations of a block. -/
def declarations (l : Layout) (depth : Nat) (ds : Declarations) : String :=
  if l.spacious then
    String.join (ds.entries.map fun (property, value) =>
      let mark := if value.important then " !important" else ""
      l.indent depth ++ property ++ ": " ++ value.text ++ mark ++ ";\n")
  else String.intercalate ";" (ds.entries.map fun (property, value) => property ++ ":" ++ value.render)

/-- A block with what is written inside it, or nothing if it has no declarations and no rules. What a
selector holds besides declarations is not enough. -/
def block (l : Layout) (depth : Nat) (b : Block) (inner : List String) : Option String :=
  if b.declarations.isEmpty && (inner.isEmpty || b.isSelector) then none
  else
    let gap := if !inner.isEmpty && !b.declarations.isEmpty then l.newline else ""
    some (l.indent depth ++ b.name ++ l.space ++ "\x7b" ++ l.newline
      ++ l.declarations (depth + 1) b.declarations ++ gap ++ String.intercalate l.newline inner
      ++ l.indent depth ++ "\x7d" ++ l.newline)

/-- What is written for each child of a block. The bound on the depth is that of the document. -/
def children (l : Layout) (d : Document) : Nat → Nat → BlockId → List String
  | 0, _, _ => []
  | fuel + 1, depth, parent =>
    (((d.get? parent).map (·.children)).getD []).filterMap fun child =>
      match child with
      | .block id => (d.get? id).bind fun b => l.block depth b (l.children d fuel (depth + 1) id)
      | .lineAt rule => some (l.indent depth ++ rule.render ++ l.newline)
      | .comment text =>
        if l.comments then some (l.indent depth ++ "/*" ++ text ++ "*/" ++ l.newline) else none

/-- The document as a tree. -/
def tree (l : Layout) (d : Document) : String :=
  let header := l.header d
  let items := l.children d d.maxDepth 0 Document.root
  let gap := if !header.isEmpty && !items.isEmpty then l.newline else ""
  header ++ gap ++ String.intercalate l.newline items

/-! ## The stream -/

/-- The stream of what was read, from a token inside `depth` blocks on. -/
def stream (l : Layout) : Nat → List Token → String
  | _, [] => ""
  | depth, ⟨kind, data⟩ :: rest =>
    match kind with
    | .atStart | .selectorStart =>
      l.indent depth ++ data ++ l.space ++ "\x7b" ++ l.newline ++ l.stream (depth + 1) rest
    | .atEnd | .selectorEnd =>
      l.indent (depth - 1) ++ "\x7d" ++ l.newline ++ l.stream (depth - 1) rest
    | .property => l.indent depth ++ data ++ ":" ++ l.space ++ l.stream depth rest
    | .value => data ++ ";" ++ l.newline ++ l.stream depth rest
    | .comment =>
      (if l.comments then l.indent depth ++ "/*" ++ data ++ "*/" ++ l.newline else "")
        ++ l.stream depth rest
    | .lineAt => l.indent depth ++ data ++ l.newline ++ l.stream depth rest

end Layout

/-- The document as text. -/
def Document.render (o : Options) (d : Document) : String :=
  let l := Layout.ofOptions o
  if o.preserveCss then l.header d ++ l.stream 0 d.tokens else l.tree d

end Stylesheet
