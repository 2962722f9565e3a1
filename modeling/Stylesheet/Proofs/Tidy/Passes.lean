import Stylesheet.Tidy
import Stylesheet.Proofs.Selector.Arrange
import Mathlib.Logic.Function.Iterate

/-!
# The passes over a whole document

Tidying the shorthands of some blocks gives them other declarations and changes nothing else (`get?_tidyBlocks`). So a
document that is its root with given twigs is its root with the same twigs afterwards, but for their declarations.

With what is known of the passes over selectors, the document that comes out in the end is sound, if nothing is lost from
the one that goes in (`improve_becomes`). `Strict.improve` is the same run of passes with lookups that fail.
-/

namespace Stylesheet

open Twig

theorem result_tidy (o : Options) (css : String) : (tidy o css).result
    = if (tidied o css).1.isEmpty then .error .emptyDocument else .ok (tidied o css).1 :=
  rfl

theorem fst_tidied {o : Options} (h : o.preserveCss = false) (css : String) :
    (tidied o css).1 = ((Document.read o css).1.improve o).1 := by
  simp [tidied, h]

/-- The declarations of a block with their shorthands in order. -/
def Shorthand.tidyOnce (level : ShorthandLevel) (ds : Declarations) : Declarations := (tidyBlock level ds).1

theorem Shorthand.tidyOnce_empty (level : ShorthandLevel) : tidyOnce level .empty = .empty := by
  cases level <;> rfl

namespace Document

open Shorthand (tidyOnce)

variable {d : Document} {ts : List Twig}

/-! ## Tidying the declarations of blocks -/

theorem get?_tidyBlock (level : ShorthandLevel) (d : Document) (id x : BlockId) :
    (d.tidyBlock level id).1.get? x = if id = x then
      (d.get? x).map fun b => { b with declarations := tidyOnce level b.declarations } else d.get? x := by
  unfold tidyBlock
  split
  · next hnone =>
    split
    · next heq => rw [← heq, hnone]; rfl
    · rfl
  · next b hget =>
    rw [get?_modify]
    split
    · next heq => rw [← heq, hget]; rfl
    · rfl

theorem size_blocks_tidyBlock (level : ShorthandLevel) (d : Document) (id : BlockId) :
    (d.tidyBlock level id).1.blocks.size = d.blocks.size := by
  unfold tidyBlock
  split
  · rfl
  · exact size_blocks_modify _ _ _

/-- Blocks are tidied as often as they are listed. -/
theorem get?_tidyBlocks (level : ShorthandLevel) (d : Document) (ids : List BlockId) (x : BlockId) :
    (d.tidyBlocks level ids).1.get? x
      = (d.get? x).map fun b => { b with declarations := (tidyOnce level)^[ids.count x] b.declarations } := by
  induction ids generalizing d with
  | nil => simp [tidyBlocks]
  | cons id ids ih =>
    rw [tidyBlocks]
    simp only [ih, get?_tidyBlock, List.count_cons, beq_iff_eq]
    split
    · simp [Function.comp_def]
    · rfl

theorem size_blocks_tidyBlocks (level : ShorthandLevel) (d : Document) (ids : List BlockId) :
    (d.tidyBlocks level ids).1.blocks.size = d.blocks.size := by
  induction ids generalizing d with
  | nil => rfl
  | cons id ids ih => rw [tidyBlocks, ih, size_blocks_tidyBlock]

theorem leads_tidyBlocks (level : ShorthandLevel) (d : Document) (ids : List BlockId) :
    d.Leads (d.tidyBlocks level ids).1 := by
  induction ids generalizing d with
  | nil => exact .refl d
  | cons id ids ih =>
    have hblock : d.Leads (d.tidyBlock level id).1 := by
      unfold tidyBlock
      split
      · exact .refl d
      · exact leads_modify d id _
    exact hblock.trans (ih _)

theorem isLive_tidyBlock (level : ShorthandLevel) (d : Document) (id x : BlockId) :
    (d.tidyBlock level id).1.isLive x = d.isLive x := by
  rw [isLive, get?_tidyBlock, isLive]
  split <;> simp

/-- **Tidying blocks** leaves the twigs as they are, but for their declarations. -/
theorem Plants.tidyBlocks (hp : d.Plants ts) (level : ShorthandLevel) (ids : List BlockId) :
    (d.tidyBlocks level ids).1.Plants (redeclareOf (fun id => (tidyOnce level)^[ids.count id]) ts) :=
  hp.redeclare (get?_tidyBlocks level d ids) (size_blocks_tidyBlocks level d ids)
    (Function.iterate_fixed (Shorthand.tidyOnce_empty level) _)

end Document

/-! ## Lookups that fail -/

namespace Strict

/-- Tidies the declarations of blocks, and fails if one of them is not there. -/
def tidyBlocks (level : ShorthandLevel) : Document → List BlockId → Option (Document × List Message)
  | d, [] => some (d, [])
  | d, id :: rest => do
    let _ ← d.get? id
    let (d, log) := d.tidyBlock level id
    let (d, more) ← tidyBlocks level d rest
    return (d, log ++ more)

/-- Tidies the declarations of all blocks of the tree, and fails if one of them is not there. Without shorthands, none
is looked up. -/
def tidyShorthands (level : ShorthandLevel) (d : Document) : Option (Document × List Message) :=
  if level = .off then some (d.tidyShorthands level) else tidyBlocks level d d.walk

/-- Everything that is done to a document between reading and writing. Of the blocks that took over declarations, some
may be gone again, and those are passed over. -/
def improve (o : Options) (d : Document) : Option (Document × List Message) := do
  let (d, shorthands) ← tidyShorthands o.optimiseShorthands d
  let a ← arrange o.mergeSelectors o.discardInvalidSelectors d
  let (d, again) := a.document.tidyBlocks o.optimiseShorthands a.merged
  return (d, shorthands ++ a.log ++ again)

end Strict

namespace Document

variable {d : Document} {ts : List Twig}

theorem strict_tidyBlocks (level : ShorthandLevel) {ids : List BlockId} (hlive : ∀ id ∈ ids, d.isLive id) :
    Strict.tidyBlocks level d ids = some (d.tidyBlocks level ids) := by
  induction ids generalizing d with
  | nil => rfl
  | cons id ids ih =>
    rw [List.forall_mem_cons] at hlive
    obtain ⟨b, hb⟩ := Option.isSome_iff_exists.mp hlive.1
    have hrest : ∀ x ∈ ids, (d.tidyBlock level id).1.isLive x := fun x hx => by
      rw [isLive_tidyBlock]
      exact hlive.2 x hx
    rw [Strict.tidyBlocks, hb, Document.tidyBlocks]
    simp [ih hrest]

theorem strict_tidyShorthands (level : ShorthandLevel) (hp : d.Plants ts) (hlost : lostOf ts = []) :
    Strict.tidyShorthands level d = some (d.tidyShorthands level) := by
  unfold Strict.tidyShorthands
  split
  · rfl
  · exact strict_tidyBlocks level (hp.wellFormed_iff.mpr hlost).2

/-- **The passes** never look up a block that is gone, and leave a sound document. -/
theorem improve_becomes (o : Options) (hp : d.Plants ts) (hlost : lostOf ts = []) :
    ∃ us, Strict.improve o d = some (d.improve o) ∧ d.Becomes (d.improve o).1 root Head.root us [] ∧ SoundOf us := by
  have hshort := hp.tidyBlocks o.optimiseShorthands d.walk
  have hsound := soundOf_redeclareOf (f := fun id => (Shorthand.tidyOnce o.optimiseShorthands)^[d.walk.count id]) ts
    (soundOf_of_lostOf ts hlost)
  obtain ⟨us, hstrict, hbecomes, hus⟩ :=
    Selector.arrange_becomes o.mergeSelectors o.discardInvalidSelectors hshort hsound
  have harranged := (leads_tidyBlocks o.optimiseShorthands d d.walk).trans hbecomes.leads
  refine ⟨_, ?_, ⟨harranged.trans (leads_tidyBlocks o.optimiseShorthands _ _),
    Plants.tidyBlocks hbecomes.bears o.optimiseShorthands _⟩, soundOf_redeclareOf us hus⟩
  rw [Strict.improve, strict_tidyShorthands o.optimiseShorthands hp hlost]
  simp only [Option.bind_eq_bind, Option.bind_some, tidyShorthands, hstrict]
  rfl

end Document

end Stylesheet
