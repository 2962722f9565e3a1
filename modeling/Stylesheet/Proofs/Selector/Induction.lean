import Stylesheet.Selector.Group
import Stylesheet.Selector.Separate

/-!
# What passes over selectors keep

A condition on documents holds after a pass if each of the small changes that the pass is made of keeps it. Discarding
removes blocks (`discardFrom_induction`), separating removes a block and puts others in its place
(`separateFrom_induction`), and grouping lets one block join another (`groupFrom_induction`).

What the last two put elsewhere is taken from blocks that the pass comes to on its way from the children of a block to
those of the at-rules among them. `Visits` says that the condition knows where this way leads.
-/

namespace Stylesheet.Selector

variable {I : Document → Prop} {visited : BlockId → Prop} {d : Document}

/-- What is kept where blocks are removed is kept by discarding. -/
theorem discardFrom_induction (hremove : ∀ d parent id, I d → I (d.remove parent id)) (h : I d) (depth : Nat)
    (parent : BlockId) : I (discardFrom depth d parent).1 := by
  induction depth generalizing d parent with
  | zero => exact h
  | succ depth ih =>
    rw [discardFrom]
    refine List.foldlRecOn (motive := fun acc : Logged => I acc.1) _ _ h fun acc hacc id _ => ?_
    dsimp only
    split
    · exact hacc
    · split
      · exact ih hacc id
      · split
        · exact hacc
        · exact hremove acc.1 parent id hacc

theorem insertBlocks_induction {Q : Block → Prop} {parent : BlockId}
    (hinsert : ∀ d i b, I d → Q b → I (d.insertBlockAt parent i b)) {bs : List Block} (hbs : ∀ b ∈ bs, Q b) (h : I d)
    (i : Nat) : I (insertBlocks parent i d bs) := by
  induction bs generalizing d i with
  | nil => exact h
  | cons b bs ih =>
    obtain ⟨hb, hbs⟩ := List.forall_mem_cons.mp hbs
    exact ih hbs (hinsert d i b h hb) (i + 1)

/-- As long as the condition holds, what stands in a visited block is visited. -/
def Visits (I : Document → Prop) (visited : BlockId → Prop) : Prop :=
  ∀ d parent id, I d → visited parent → id ∈ d.childBlocks parent → visited id

/-- What is kept where blocks are removed, and where parts of a visited block are put between the children of another,
is kept by separating. -/
theorem separateFrom_induction {Q : Block → Prop} (hvisits : Visits I visited)
    (hremove : ∀ d parent id, I d → I (d.remove parent id))
    (hinsert : ∀ d parent i b, I d → Q b → I (d.insertBlockAt parent i b))
    (hparts : ∀ d id b, I d → visited id → d.get? id = some b → ∀ c ∈ separated b, Q c) (h : I d) (depth : Nat)
    {parent : BlockId} (hparent : visited parent) : I (separateFrom depth d parent) := by
  induction depth generalizing d parent with
  | zero => exact h
  | succ depth ih =>
    rw [separateFrom]
    refine List.foldlRecOn (motive := fun d : Document => I d) _ _ h fun d' hd' id hid => ?_
    have hvisited := hvisits d parent id h hparent hid
    split
    · exact hd'
    · next b hget =>
      split
      · exact ih hd' hvisited
      · unfold separateChild
        split
        · exact hd'
        · split
          · exact hd'
          · exact insertBlocks_induction (fun d i b => hinsert d parent i b) (hparts d' id b hd' hvisited hget)
              (hremove d' parent id hd') _

section Group

variable (hjoin : ∀ d parent group id b, I d → visited id → d.get? id = some b → b.isSelector = true →
  I (joinGroup d parent group b id).1)
include hjoin

theorem gatherGroup_induction (adjacent : Bool) (parent group : BlockId) (shared : Declarations) (h : I d)
    {ids : List BlockId} (hids : ∀ id ∈ ids, visited id) : I (gatherGroup adjacent parent group shared d ids).1 := by
  induction ids generalizing d with
  | nil => exact h
  | cons id ids ih =>
    obtain ⟨hid, hids⟩ := List.forall_mem_cons.mp hids
    rw [gatherGroup]
    split
    · exact ih h hids
    · next b hget =>
      split
      · next hjoins =>
        have hselector := (Bool.and_eq_true_iff.mp hjoins).1
        exact ih (hjoin d parent group id b h hid hget hselector) hids
      · split
        · exact h
        · exact ih h hids

theorem groupSiblings_induction (adjacent : Bool) (parent : BlockId) (h : I d) {ids : List BlockId}
    (hids : ∀ id ∈ ids, visited id) : I (groupSiblings adjacent parent d ids).1 := by
  induction ids generalizing d with
  | nil => exact h
  | cons id ids ih =>
    have hrest := (List.forall_mem_cons.mp hids).2
    rw [groupSiblings]
    split
    · exact ih h hrest
    · exact ih (gatherGroup_induction hjoin adjacent parent id _ h hrest) hrest

/-- What is kept where a visited selector joins a group is kept by grouping. -/
theorem groupFrom_induction (hvisits : Visits I visited) (adjacent : Bool) (h : I d) (depth : Nat) {parent : BlockId}
    (hparent : visited parent) : I (groupFrom adjacent depth d parent).1 := by
  induction depth generalizing d parent with
  | zero => exact h
  | succ depth ih =>
    have hgrouped := groupSiblings_induction hjoin adjacent parent h fun id hid => hvisits d parent id h hparent hid
    rw [groupFrom]
    refine List.foldlRecOn (motive := fun acc : Logged => I acc.1) _ _ hgrouped fun acc hacc id hid => ?_
    dsimp only
    split
    · exact ih hacc (hvisits _ parent id hgrouped hparent hid)
    · exact hacc

end Group

end Stylesheet.Selector
