import Stylesheet.Layout
import Stylesheet.Proofs.Document.Node

/-!
# Writing a tree

What is written for a document depends on its tree only, and not on the identifiers in its table: `nodes` writes a
tree, by recursion on it, and gives the same text (`render_eq`).
-/

namespace Stylesheet

/-- There are no rules about the document as a whole. -/
structure Document.Headless (d : Document) : Prop where
  charset : d.charset = none
  imports : d.imports = []
  namespaces : d.namespaces = []

namespace Layout

mutual

/-- What is written for a node. -/
def node (l : Layout) (depth : Nat) : Node → Option String
  | .block name kind ds children =>
    l.block depth { name, kind, declarations := ds } (l.nodes (depth + 1) children)
  | .lineAt rule => some (l.indent depth ++ rule.render ++ l.newline)
  | .comment text =>
    if l.comments then some (l.indent depth ++ "/*" ++ text ++ "*/" ++ l.newline) else none

/-- What is written for each of some nodes. -/
def nodes (l : Layout) (depth : Nat) : List Node → List String
  | [] => []
  | n :: ns => (l.node depth n).toList ++ l.nodes depth ns

end

theorem nodes_eq_filterMap (l : Layout) (depth : Nat) (ns : List Node) :
    l.nodes depth ns = ns.filterMap (l.node depth) := by
  induction ns with
  | nil => rfl
  | cons n ns ih =>
    rw [nodes, ih, List.filterMap_cons]
    cases l.node depth n <;> rfl

/-- What is written for the children of a block is what is written for the nodes in it. -/
theorem children_eq_nodes (l : Layout) (d : Document) (fuel depth : Nat) (id : BlockId) :
    l.children d fuel depth id = l.nodes depth (d.nodes fuel id) := by
  induction fuel generalizing depth id with
  | zero => rfl
  | succ fuel ih =>
    rw [children, Document.nodes, nodes_eq_filterMap, List.filterMap_filterMap]
    congr 1
    funext child
    cases child with
    | block id =>
      simp only [Document.childNode]
      cases d.get? id with
      | none => rfl
      | some b =>
        simp only [Option.bind_some, Option.map_some, ih, node]
        -- what stands in a block is not looked up through its identifiers any more
        rfl
    | lineAt rule => simp only [Document.childNode, Option.bind_some, node]
    | comment text => simp only [Document.childNode, Option.bind_some, node]

theorem tree_eq {l : Layout} {d : Document} (h : d.Headless) :
    l.tree d = String.intercalate l.newline (l.nodes 0 d.tree) := by
  have hheader : l.header d = "" := by
    rw [header, headerLines, h.charset, h.imports, h.namespaces]
    rfl
  rw [tree, hheader, children_eq_nodes]
  exact String.empty_append

end Layout

/-- **What is written for a document** is what is written for its tree. -/
theorem Document.render_eq {o : Options} {d : Document} (ho : o.preserveCss = false) (h : d.Headless) :
    d.render o = String.intercalate (Layout.ofOptions o).newline ((Layout.ofOptions o).nodes 0 d.tree) := by
  rw [render, ho, if_neg (by decide), Layout.tree_eq h]

end Stylesheet
