import Stylesheet.Proofs.Document.Arena

/-!
# Blocks that refer to each other only

`Document.Enclosed d R P` says that nothing leads out of a set of blocks: what stands in a block of the set belongs to it
too, and so does every block that is still to come. A condition holds for the names and kinds of its blocks, whatever the
table holds beside them. All this is kept where blocks are taken out, and where what is put into a block of the set comes
from the set.

A condition on all blocks of a tree (`Labelled`) is carried over to what becomes of the tree by such a set: the blocks of
the first tree, with those to come, are one (`Labelled.enclosed`), and a set with the root has all blocks of the second
(`Enclosed.labelled`).
-/

namespace Stylesheet

open List

variable {R : BlockId → Prop} {P : String → BlockKind → Prop}

/-- The condition holds for the name and the kind of the block, and the blocks in it belong to the set. -/
structure Block.Within (R : BlockId → Prop) (P : String → BlockKind → Prop) (b : Block) : Prop where
  label : P b.name b.kind
  inside : ∀ id, .block id ∈ b.children → R id

/-- The block has fewer children. -/
theorem Block.Within.of_sublist {b : Block} (h : b.Within R P) {children : List Child}
    (hsub : children.Sublist b.children) : Block.Within R P { b with children } :=
  ⟨h.label, fun id hid => h.inside id (hsub.subset hid)⟩

/-- The blocks in two blocks belong to the set. -/
theorem Block.Within.inside_append {b c : Block} (hb : b.Within R P) (hc : c.Within R P) :
    ∀ id, .block id ∈ b.children ++ c.children → R id := by
  intro id hid
  rcases mem_append.mp hid with hid | hid
  · exact hb.inside id hid
  · exact hc.inside id hid

namespace Document

/-- The blocks of the set refer to each other only, and the condition holds for their names and kinds. Blocks that are
still to come belong to the set. -/
structure Enclosed (d : Document) (R : BlockId → Prop) (P : String → BlockKind → Prop) : Prop where
  within : ∀ id b, R id → d.get? id = some b → b.Within R P
  coming : ∀ id, d.blocks.size ≤ id.index → R id

/-- The condition holds for the names and kinds of all blocks of the tree. -/
def Labelled (d : Document) (P : String → BlockKind → Prop) : Prop :=
  ∀ id b, d.Below root id → d.get? id = some b → P b.name b.kind

/-- If the condition holds throughout the tree, then the blocks below the root, with those to come, are such a set. -/
theorem Labelled.enclosed {d : Document} (h : d.Labelled P) :
    d.Enclosed (fun id => d.Below root id ∨ d.blocks.size ≤ id.index) P := by
  refine ⟨fun id b hid hget => ?_, fun id => .inr⟩
  have hbelow : d.Below root id := hid.resolve_right (Nat.not_le.mpr (index_lt_of_get? hget))
  exact ⟨h id b hbelow hget, fun x hx => .inl (hbelow.tail (mem_childBlocks.mpr ⟨b, hget, hx⟩))⟩

namespace Enclosed

variable {d d' : Document} {parent id : BlockId} {f : Block → Block} {b : Block}

section

variable (h : d.Enclosed R P)
include h

theorem of_mem_childBlocks (hparent : R parent) (hid : id ∈ d.childBlocks parent) : R id := by
  obtain ⟨b, hget, hmem⟩ := mem_childBlocks.mp hid
  exact (h.within parent b hparent hget).inside id hmem

/-- Nothing leads out of the set. -/
theorem of_below (hparent : R parent) (hid : d.Below parent id) : R id := by
  induction hid with
  | refl => exact hparent
  | tail _ hchild ih => exact h.of_mem_childBlocks ih hchild

/-- A set with the root has all blocks of the tree. -/
theorem labelled (hroot : R root) : d.Labelled P :=
  fun id b hid hget => (h.within id b (h.of_below hroot hid) hget).label

theorem congr (hblocks : d'.blocks = d.blocks) : d'.Enclosed R P := by
  refine ⟨fun id b hid hget => ?_, fun id hid => h.coming id (by rwa [hblocks] at hid)⟩
  rw [get?, hblocks] at hget
  exact h.within id b hid hget

theorem modify (id : BlockId) (hf : ∀ b, b.Within R P → (f b).Within R P) : (d.modify id f).Enclosed R P := by
  refine ⟨fun x c hx hget => ?_, fun x hx => h.coming x (by rwa [size_blocks_modify] at hx)⟩
  rw [get?_modify] at hget
  split at hget
  · obtain ⟨b, hb, rfl⟩ := Option.map_eq_some_iff.mp hget
    exact hf b (h.within x b hx hb)
  · exact h.within x c hx hget

theorem vacate (id : BlockId) : (d.vacate id).Enclosed R P := by
  refine ⟨fun x c hx hget => ?_, fun x hx => h.coming x (by rwa [size_blocks_vacate] at hx)⟩
  rw [get?_vacate] at hget
  split at hget
  · cases hget
  · exact h.within x c hx hget

theorem detach (parent id : BlockId) : (d.detach parent id).Enclosed R P :=
  h.modify parent fun _ hb => hb.of_sublist filter_sublist

theorem remove (parent id : BlockId) : (d.remove parent id).Enclosed R P :=
  foldlRecOn (motive := fun d : Document => d.Enclosed R P) _ _ (h.detach parent id) fun _ hd x _ => hd.vacate x

theorem fresh : R d.fresh := h.coming d.fresh (Nat.le_refl _)

theorem alloc (hb : b.Within R P) : (d.alloc b).Enclosed R P := by
  refine ⟨fun x c hx hget => ?_, fun x hx => h.coming x ?_⟩
  · rw [get?_alloc] at hget
    split at hget
    · rwa [← Option.some.inj hget]
    · exact h.within x c hx hget
  · rw [size_blocks_alloc] at hx
    exact Nat.le_of_succ_le hx

theorem addBlock (parent : BlockId) (hb : b.Within R P) : (d.addBlock parent b).Enclosed R P := by
  refine (h.alloc hb).modify parent fun p hp => ⟨hp.label, fun id hid => ?_⟩
  rcases mem_append.mp hid with hid | hid
  · exact hp.inside id hid
  · cases mem_singleton.mp hid
    exact h.fresh

theorem insertBlockAt (parent : BlockId) (i : Nat) (hb : b.Within R P) : (d.insertBlockAt parent i b).Enclosed R P := by
  refine (h.alloc hb).modify parent fun p hp => ⟨hp.label, fun id hid => ?_⟩
  rcases mem_append.mp hid with hid | hid
  · exact hp.inside id (mem_of_mem_take hid)
  · rcases mem_cons.mp hid with hid | hid
    · cases hid
      exact h.fresh
    · exact hp.inside id (mem_of_mem_drop hid)

end

end Enclosed

end Document

end Stylesheet
