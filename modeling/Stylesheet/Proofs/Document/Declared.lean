import Stylesheet.Proofs.Document.Twig

/-!
# The declarations in a table

`Document.Declares d P except` says that a condition holds for the declarations of all blocks of a table, but for some
blocks that are listed. Whatever takes blocks out of the table or changes anything but declarations keeps it.
-/

namespace Stylesheet.Document

/-- The condition holds for the declarations of all blocks that are there, other than the given ones. -/
def Declares (d : Document) (P : Declarations → Prop) (except : List BlockId) : Prop :=
  ∀ id b, d.get? id = some b → id ∉ except → P b.declarations

theorem declares_empty {P : Declarations → Prop} (h : P .empty) (except : List BlockId) : empty.Declares P except := by
  rintro ⟨index⟩ b hget -
  cases index with
  | zero =>
    rw [← Option.some.inj hget]
    exact h
  | succ index => simp [get?, empty] at hget

namespace Declares

variable {d d' : Document} {P : Declarations → Prop} {except more : List BlockId} {id : BlockId} {f : Block → Block}
  {b : Block}

theorem congr (h : d.Declares P except) (hblocks : d'.blocks = d.blocks) : d'.Declares P except := by
  intro id b hget
  rw [get?, hblocks] at hget
  exact h id b hget

/-- The condition holds for the blocks at the top of the tree. -/
theorem of_mem_tree (h : d.Declares P []) {name : String} {kind : BlockKind} {ds : Declarations} {children : List Node}
    (hmem : .block name kind ds children ∈ d.tree) : P ds := by
  rw [tree] at hmem
  cases hdepth : d.maxDepth with
  | zero =>
    rw [hdepth] at hmem
    cases hmem
  | succ fuel =>
    rw [hdepth, nodes, List.mem_filterMap] at hmem
    obtain ⟨child, -, hnode⟩ := hmem
    cases child with
    | block id =>
      obtain ⟨b, hb, hblock⟩ := Option.map_eq_some_iff.mp hnode
      cases hblock
      exact h id b hb List.not_mem_nil
    | lineAt rule => cases hnode
    | comment text => cases hnode

section

variable (h : d.Declares P except)
include h

theorem mono (hsub : except ⊆ more) : d.Declares P more :=
  fun id b hget hid => h id b hget fun hmem => hid (hsub hmem)

/-- A block is changed so that the condition still holds for it. -/
theorem modify (hf : id ∉ except → ∀ b, d.get? id = some b → P (f b).declarations) :
    (d.modify id f).Declares P except := by
  intro x c hget hx
  rw [get?_modify] at hget
  split at hget
  · next heq =>
    subst heq
    obtain ⟨b, hb, rfl⟩ := Option.map_eq_some_iff.mp hget
    exact hf hx b hb
  · exact h x c hget hx

/-- A block is changed in anything but its declarations. -/
theorem modify_same (hf : ∀ b, (f b).declarations = b.declarations) : (d.modify id f).Declares P except :=
  h.modify fun hid b hb => hf b ▸ h id b hb hid

theorem vacate (id : BlockId) : (d.vacate id).Declares P except := by
  intro x c hget hx
  rw [get?_vacate] at hget
  split at hget
  · cases hget
  · exact h x c hget hx

theorem foldl_vacate (ids : List BlockId) : (ids.foldl Document.vacate d).Declares P except := by
  intro x c hget hx
  rw [get?_foldl_vacate] at hget
  split at hget
  · cases hget
  · exact h x c hget hx

theorem detach (parent id : BlockId) : (d.detach parent id).Declares P except :=
  h.modify_same fun _ => rfl

theorem remove (parent id : BlockId) : (d.remove parent id).Declares P except :=
  (h.detach parent id).foldl_vacate ((d.detach parent id).subtree id)

theorem alloc (hb : P b.declarations) : (d.alloc b).Declares P except := by
  intro x c hget hx
  rw [get?_alloc] at hget
  split at hget
  · rw [← Option.some.inj hget]
    exact hb
  · exact h x c hget hx

theorem addBlock (parent : BlockId) (hb : P b.declarations) : (d.addBlock parent b).Declares P except :=
  (h.alloc hb).modify_same fun _ => rfl

theorem insertBlockAt (parent : BlockId) (i : Nat) (hb : P b.declarations) :
    (d.insertBlockAt parent i b).Declares P except :=
  (h.alloc hb).modify_same fun _ => rfl

end

end Declares

end Stylesheet.Document
