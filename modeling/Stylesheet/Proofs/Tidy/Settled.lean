import Stylesheet.Proofs.Selector.Declared
import Stylesheet.Proofs.Shorthand.Settled
import Stylesheet.Proofs.Tidy.Passes

/-!
# Shorthands in the document that comes out

Every block is tidied before the selectors are arranged, and the blocks that took over declarations are tidied once more
afterwards. No other block has changed in between, and one run over a block is enough. So there is nothing left to do for
the shorthands of any block of the document that comes out (`tidyBlock_of_tidy_eq_ok`).
-/

namespace Stylesheet

namespace Shorthand

/-- There is nothing to do for the shorthands, and nothing to be said about them. -/
def InOrder (ds : Declarations) : Prop := tidyBlock .common ds = (ds, [])

theorem PlainCorners.insertAll {ds : Declarations} (h : PlainCorners ds) {entries : List Declaration}
    (hentries : ∀ x ∈ entries, x.1 = "border-radius" → Text.Plain x.2.text) : PlainCorners (ds.insertAll entries) := by
  induction entries generalizing ds with
  | nil => exact h
  | cons x entries ih =>
    obtain ⟨hx, hentries⟩ := List.forall_mem_cons.mp hentries
    refine ih (fun value hvalue => ?_) hentries
    rw [Declarations.get?_insert] at hvalue
    split at hvalue
    · next hgiven =>
      obtain rfl := Option.some.inj hvalue
      exact hx hgiven.2.symm
    · exact h value hvalue

theorem PlainCorners.merge (ds es : Declarations) (hds : PlainCorners ds) (hes : PlainCorners es) :
    PlainCorners (ds.merge es) := by
  refine hds.insertAll fun x hx hname => hes x.2 ?_
  rw [← hname]
  exact Declarations.get?_eq_some_iff.mpr hx

theorem PlainCorners.iterate {ds : Declarations} (h : PlainCorners ds) (n : Nat) :
    PlainCorners ((tidyOnce .common)^[n] ds) := by
  induction n generalizing ds with
  | zero => exact h
  | succ n ih => exact ih h.tidyBlock

/-- Declarations that were tidied, however often, are in order. -/
theorem inOrder_iterate {ds : Declarations} (h : PlainCorners ds) (n : Nat) :
    InOrder ((tidyOnce .common)^[n + 1] ds) := by
  have hfixed : tidyOnce .common (tidyOnce .common ds) = tidyOnce .common ds := by
    unfold tidyOnce
    rw [tidyBlock_tidyBlock h]
  rw [Function.iterate_succ_apply, Function.iterate_fixed hfixed]
  exact tidyBlock_tidyBlock h

end Shorthand

open Shorthand (PlainCorners InOrder)

namespace Document

variable {d : Document}

theorem Declares.plainCorners_tidyBlocks (h : d.Declares PlainCorners []) (ids : List BlockId) :
    (d.tidyBlocks .common ids).1.Declares PlainCorners [] := by
  intro x c hget hx
  rw [get?_tidyBlocks] at hget
  obtain ⟨b, hb, rfl⟩ := Option.map_eq_some_iff.mp hget
  exact (h x b hb hx).iterate _

/-- Tidying the blocks that are not in order puts all of them in order. -/
theorem Declares.inOrder_tidyBlocks {ids : List BlockId} (hplain : d.Declares PlainCorners [])
    (h : d.Declares InOrder ids) : (d.tidyBlocks .common ids).1.Declares InOrder [] := by
  intro x c hget hx
  rw [get?_tidyBlocks] at hget
  obtain ⟨b, hb, rfl⟩ := Option.map_eq_some_iff.mp hget
  cases hcount : ids.count x with
  | zero => exact h x b hb (List.count_eq_zero.mp hcount)
  | succ n => exact Shorthand.inOrder_iterate (hplain x b hb hx) n

/-- All blocks are in order after the passes. -/
theorem Declares.inOrder_improve {o : Options} (hlevel : o.optimiseShorthands = .common)
    (hwalk : ∀ id, d.isLive id → id ∈ d.walk) (hplain : d.Declares PlainCorners []) :
    (d.improve o).1.Declares InOrder [] := by
  have hlisted : d.Declares InOrder d.walk := fun id b hget hid =>
    absurd (hwalk id (Option.isSome_iff_exists.mpr ⟨b, hget⟩)) hid
  obtain ⟨hall, hothers⟩ := Selector.arrange_declares PlainCorners.merge (hplain.plainCorners_tidyBlocks d.walk)
    (hplain.inOrder_tidyBlocks hlisted) o.mergeSelectors o.discardInvalidSelectors
  simp only [improve, tidyShorthands, hlevel]
  exact hall.inOrder_tidyBlocks hothers

end Document

/-- **Every block that comes out is in order.** Where the text for the corners is plain in every block of the document
that is read, there is nothing left to do for the shorthands of any block of the document that comes out, and nothing
left to be said about them. -/
theorem tidyBlock_of_tidy_eq_ok {o : Options} {css : String} {d : Document} (hpreserve : o.preserveCss = false)
    (hlevel : o.optimiseShorthands = .common)
    (hplain : ∀ id ∈ (Document.read o css).1.walk, ∀ b ∈ (Document.read o css).1.get? id, PlainCorners b.declarations)
    (h : (tidy o css).result = .ok d) (id : BlockId) (b : Block) (hget : d.get? id = some b) :
    Shorthand.tidyBlock .common b.declarations = (b.declarations, []) := by
  obtain ⟨ts, hp, -⟩ := Reader.read_plants o css
  have hdeclares : (Document.read o css).1.Declares PlainCorners [] := fun id b hget _ =>
    hplain id (hp.mem_walk_of_isLive (Option.isSome_iff_exists.mpr ⟨b, hget⟩)) b hget
  have hd : d = ((Document.read o css).1.improve o).1 := by
    rw [result_tidy] at h
    split at h
    · exact absurd h nofun
    · rw [← Except.ok.inj h, fst_tidied hpreserve]
  subst hd
  exact hdeclares.inOrder_improve hlevel (fun _ => hp.mem_walk_of_isLive) id b hget List.not_mem_nil

/-- Everything is put together. -/
def mergingAll : Options where
  mergeSelectors := .all

/-- The longhands of a pair in two rules of one name, and corners that can be shortened. -/
def spreadCues : String := "@page\x7bcue-after:0;border-radius:1 1\x7d@page\x7bcue-before:0\x7d"

/-- The two rules as they are read. -/
def readCues : Document where
  blocks := #[
    some { name := "", kind := .atBlock, children := [.block ⟨1⟩, .block ⟨2⟩] },
    some { name := "@page", kind := .atBlock,
           declarations := .ofList [("cue-after", ⟨"0", false⟩), ("border-radius", ⟨"1 1", false⟩)] },
    some { name := "@page", kind := .atBlock, declarations := .ofList [("cue-before", ⟨"0", false⟩)] }]

/-- The two rules in one, with the shorthand of the pair. -/
def gatheredCues : Document where
  blocks := #[
    some { name := "", kind := .atBlock, children := [.block ⟨1⟩] },
    some { name := "@page", kind := .atBlock,
           declarations := .ofList [("cue", ⟨"0", false⟩), ("border-radius", ⟨"1", false⟩)] },
    none]

theorem tidyBlock_gatheredCues :
    (∀ id ∈ (Document.read mergingAll spreadCues).1.walk,
      ∀ b ∈ (Document.read mergingAll spreadCues).1.get? id, PlainCorners b.declarations) ∧
    (tidy mergingAll spreadCues).result = .ok gatheredCues ∧
    ∀ id b, gatheredCues.get? id = some b → Shorthand.tidyBlock .common b.declarations = (b.declarations, []) := by
  have hread : (Document.read mergingAll spreadCues).1 = readCues :=
    Reader.read_view id mergingAll spreadCues 60 (by decide +kernel) (by decide +kernel)
  have hplain : ∀ id ∈ (Document.read mergingAll spreadCues).1.walk,
      ∀ b ∈ (Document.read mergingAll spreadCues).1.get? id, PlainCorners b.declarations := by
    rw [hread]
    decide +kernel
  have hresult : (tidy mergingAll spreadCues).result = .ok gatheredCues := by
    have himproved : (readCues.improve mergingAll).1 = gatheredCues := by decide +kernel
    rw [result_tidy, fst_tidied rfl, hread, himproved]
    rfl
  exact ⟨hplain, hresult, tidyBlock_of_tidy_eq_ok rfl rfl hplain hresult⟩

end Stylesheet
