import Stylesheet.Layout
import Stylesheet.Proofs.Document.Reach

/-!
# Lookups of the writer

The writer passes over children that are gone, and looks up the others once more when it writes what is in them.
`Strict.render` writes a document and fails if that second lookup finds nothing. For a document that is its root with
given twigs it never fails, whatever is lost among them (`Document.Plants.strict_render`).
-/

namespace Stylesheet

open Twig Option

namespace Strict

/-- What is written for each child of a block. Fails if the block is not there or the descent is cut short. -/
def children (l : Layout) (d : Document) : Nat → Nat → BlockId → Option (List String)
  | 0, _, _ => none
  | fuel + 1, depth, parent => do
    let b ← d.get? parent
    List.reduceOption <$> b.children.mapM fun child =>
      match child with
      | .block id =>
        match d.get? id with
        | some b => (children l d fuel (depth + 1) id).map (l.block depth b)
        | none => some none
      | .lineAt rule => some (some (l.indent depth ++ rule.render ++ l.newline))
      | .comment text =>
        some (if l.comments then some (l.indent depth ++ "/*" ++ text ++ "*/" ++ l.newline) else none)

/-- The document as text, if every block that is looked up is there. -/
def render (o : Options) (d : Document) : Option String :=
  let l := Layout.ofOptions o
  if o.preserveCss then some (l.header d ++ l.stream 0 d.tokens)
  else do
    let items ← children l d d.maxDepth 0 Document.root
    let header := l.header d
    let gap := if !header.isEmpty && !items.isEmpty then l.newline else ""
    return header ++ gap ++ String.intercalate l.newline items

end Strict

namespace Document

variable {d : Document} {parent : BlockId} {h : Head} {ts : List Twig} {rest : List (BlockId × Block)}

theorem reduceOption_mapM {α β : Type} {f : α → Option (Option β)} {g : α → Option β} {xs : List α}
    (h : ∀ x ∈ xs, f x = some (g x)) : List.reduceOption <$> xs.mapM f = some (xs.filterMap g) := by
  suffices hmap : xs.mapM f = some (xs.map g) by
    rw [hmap, map_eq_map, map_some]
    exact congrArg some List.filterMap_map
  induction xs with
  | nil => rfl
  | cons x xs ih =>
    rw [List.forall_mem_cons] at h
    rw [List.mapM_cons, h.1, ih h.2]
    rfl

/-- What is written for the children of a block is looked up without failing. -/
theorem Bears.strict_children (l : Layout) (fuel depth : Nat) (hb : d.Bears parent h ts rest)
    (hfuel : (entriesOf ts).length < fuel) :
    Strict.children l d fuel depth parent = some (l.children d fuel depth parent) := by
  induction fuel generalizing depth parent h ts rest with
  | zero => omega
  | succ fuel ih =>
    rw [Strict.children, Layout.children, hb.get?_parent]
    simp only [bind_eq_bind, bind_some, Head.children_block, map_some, getD_some]
    refine reduceOption_mapM ?_
    intro c hc
    obtain ⟨t, ht, rfl⟩ := List.mem_map.mp hc
    cases t with
    | block id hd cs =>
      obtain ⟨rest', hinner⟩ := hb.enter_of_mem ht
      have hlt := length_entriesOf_lt ht
      simp only [child, hb.get?_of_mem ht, bind_some, ih (depth + 1) hinner (by omega), map_some]
    | gone id => simp only [child, hb.get?_of_gone ht, bind_none]
    | lineAt rule => rfl
    | comment text => rfl

/-- **The writer never fails**, whatever a document still refers to. -/
theorem Plants.strict_render (hp : d.Plants ts) (o : Options) : Strict.render o d = some (d.render o) := by
  unfold Strict.render Document.render
  split
  · rfl
  · simp only [Bears.strict_children _ _ _ hp hp.length_lt]
    rfl

end Document

end Stylesheet
