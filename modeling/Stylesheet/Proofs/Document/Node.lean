import Stylesheet.Document.Basic
import Mathlib.Data.List.Nodup
import Mathlib.Data.List.Perm.Subperm

/-!
# Documents as trees

The blocks of a document stand in a table and refer to each other by identifiers. What a document says does
not depend on them: `Document.tree` forgets the identifiers and gives the tree below the root.

A table is known from the entries that it holds (`Holds`). A change of one block is a change of one entry, and leaves
the others where they are.
-/

namespace Stylesheet

variable {d : Document}

/-- What stands in a stylesheet, with the identifiers of the blocks forgotten. -/
inductive Node where
  | block (name : String) (kind : BlockKind) (declarations : Declarations) (children : List Node)
  | lineAt (rule : LineAt)
  | comment (text : String)

theorem LineAt.render_ne_empty (rule : LineAt) : rule.render ≠ "" := by
  unfold render
  split <;> simp

namespace Document

variable {id : BlockId} {b : Block}

/-! ## The tree of a document -/

/-- The node of a child, given what stands in blocks. A block that is gone has none. -/
def childNode (d : Document) (inside : BlockId → List Node) : Child → Option Node
  | .block id => (d.get? id).map fun b => .block b.name b.kind b.declarations (inside id)
  | .lineAt rule => some (.lineAt rule)
  | .comment text => some (.comment text)

/-- What stands in a block, down to some depth. -/
def nodes (d : Document) : Nat → BlockId → List Node
  | 0, _ => []
  | fuel + 1, id => (((d.get? id).map (·.children)).getD []).filterMap (d.childNode (d.nodes fuel))

/-- The document as a tree: what stands below its root. -/
def tree (d : Document) : List Node := d.nodes d.maxDepth root

/-! ## The table after a change -/

theorem index_lt_of_get? (h : d.get? id = some b) : id.index < d.blocks.size := by
  by_contra hge
  simp [get?, Array.getElem?_eq_none (Nat.le_of_not_lt hge)] at h

theorem mem_liveBlocks : b ∈ d.liveBlocks ↔ ∃ id, d.get? id = some b := by
  have hmem : b ∈ d.liveBlocks ↔ some b ∈ d.blocks.toList := by simp [liveBlocks]
  rw [hmem, List.mem_iff_getElem?]
  constructor
  · rintro ⟨i, hi⟩
    rw [Array.getElem?_toList] at hi
    exact ⟨⟨i⟩, by rw [get?, hi]; rfl⟩
  · rintro ⟨⟨i⟩, hi⟩
    exact ⟨i, by rw [Array.getElem?_toList]; exact Option.join_eq_some_iff.mp hi⟩

/-- The next identifier belongs to no block. -/
theorem get?_fresh (d : Document) : d.get? d.fresh = none := by
  simp [get?, fresh]

theorem get?_alloc_fresh (d : Document) (b : Block) : (d.alloc b).get? d.fresh = some b := by
  simp [get?, alloc, fresh]

/-- A new block leaves the others where they are. -/
theorem get?_alloc_of_get? {x : Block} (h : d.get? id = some x) (b : Block) : (d.alloc b).get? id = some x := by
  have hlt := index_lt_of_get? h
  rw [← h]
  simp only [get?, alloc]
  rw [Array.getElem?_push_lt hlt, Array.getElem?_eq_getElem hlt]

theorem get?_modify_self (h : d.get? id = some b) (f : Block → Block) : (d.modify id f).get? id = some (f b) := by
  have hlt := index_lt_of_get? h
  simp only [modify, h]
  simp [get?, Array.getElem?_setIfInBounds_self_of_lt hlt]

/-- A change of one block leaves the others alone. -/
theorem get?_modify_of_ne {id' : BlockId} (h : id ≠ id') (f : Block → Block) :
    (d.modify id f).get? id' = d.get? id' := by
  have hindex : id.index ≠ id'.index := fun heq => h (by cases id; cases id'; simp_all)
  unfold modify
  split
  · simp [get?, Array.getElem?_setIfInBounds_ne hindex]
  · rfl

theorem get?_modify (d : Document) (id id' : BlockId) (f : Block → Block) :
    (d.modify id f).get? id' = if id = id' then (d.get? id').map f else d.get? id' := by
  split
  · next heq =>
    subst heq
    cases h : d.get? id with
    | none => simp [modify, h]
    | some b => rw [get?_modify_self h, Option.map_some]
  · next hne => exact get?_modify_of_ne hne f

@[simp] theorem size_blocks_modify (d : Document) (id : BlockId) (f : Block → Block) :
    (d.modify id f).blocks.size = d.blocks.size := by
  unfold modify
  split <;> simp

/-! ## Entries of a table -/

/-- The table has all the given entries. -/
def Holds (d : Document) (entries : List (BlockId × Block)) : Prop :=
  ∀ e ∈ entries, d.get? e.1 = some e.2

theorem Holds.of_subset {es es' : List (BlockId × Block)} (h : d.Holds es') (hsub : es ⊆ es') : d.Holds es :=
  fun e he => h e (hsub he)

/-- Entries with different identifiers are not more than the table has places. -/
theorem Holds.length_le {es : List (BlockId × Block)} (h : d.Holds es)
    (hnodup : (es.map Prod.fst).Nodup) : es.length ≤ d.blocks.size := by
  have hindex : (es.map fun e => e.1.index).Nodup := by
    have hcomp : (es.map fun e => e.1.index) = (es.map Prod.fst).map BlockId.index := by
      rw [List.map_map]
      rfl
    rw [hcomp]
    exact hnodup.map fun a b hab => by cases a; cases b; simp_all
  have hsub : (es.map fun e => e.1.index) ⊆ List.range d.blocks.size := by
    intro i hi
    obtain ⟨e, he, rfl⟩ := List.mem_map.mp hi
    exact List.mem_range.mpr (index_lt_of_get? (h e he))
  simpa using (hindex.subperm hsub).length_le

end Document

end Stylesheet
