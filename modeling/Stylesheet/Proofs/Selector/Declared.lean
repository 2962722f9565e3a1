import Stylesheet.Selector.Arrange
import Stylesheet.Proofs.Document.Declared
import Stylesheet.Proofs.Selector.Induction
import Mathlib.Data.List.Basic

/-!
# Declarations while selectors are arranged

Discarding, separating and grouping selectors give no block other declarations than a block had before. Merging blocks by
name does, and it lists every block that took over declarations. So a condition on the declarations of all blocks holds
afterwards, but for the listed blocks (`arrange_declares`). A condition that is kept when declarations are read behind
others holds for these too.
-/

namespace Stylesheet.Selector

open Document List

variable {d : Document} {P Q : Declarations → Prop} {except : List BlockId}

/-! ## Discarding, separating and grouping -/

theorem discardFrom_declares (h : d.Declares P except) (depth : Nat) (parent : BlockId) :
    (discardFrom depth d parent).1.Declares P except :=
  discardFrom_induction (I := fun d => d.Declares P except) (fun _ parent id hd => hd.remove parent id) h depth parent

theorem separateFrom_declares (h : d.Declares P []) (depth : Nat) (parent : BlockId) :
    (separateFrom depth d parent).Declares P [] := by
  refine separateFrom_induction (I := fun d => d.Declares P []) (Q := fun b => P b.declarations)
    (fun _ _ _ _ _ _ => trivial) (fun _ parent id hd => hd.remove parent id)
    (fun _ parent i _ hd hb => hd.insertBlockAt parent i hb) ?_ h depth trivial
  exact fun _ id b hd _ hget => forall_mem_map.mpr fun _ _ => hd id b hget not_mem_nil

theorem groupFrom_declares (adjacent : Bool) (h : d.Declares P except) (depth : Nat) (parent : BlockId) :
    (groupFrom adjacent depth d parent).1.Declares P except := by
  refine groupFrom_induction (I := fun d => d.Declares P except) ?_ (fun _ _ _ _ _ _ => trivial) adjacent h depth
    trivial
  exact fun _ parent _ id _ hd _ _ _ => (hd.remove parent id).modify_same fun _ => rfl

/-! ## Merging by name -/

/-- What is known of the declarations while blocks are merged: one condition holds for all of them, the other for those
that are not listed. -/
structure Merging.Declares (m : Merging) (Q P : Declarations → Prop) (except : List BlockId) : Prop where
  all : m.document.Declares Q []
  others : m.document.Declares P (except ++ m.merged)

theorem merge_of_isEmpty {ds es : Declarations} (h : es.isEmpty = true) : ds.merge es = ds := by
  have hentries : es.entries = [] := isEmpty_iff.mp h
  rw [Declarations.merge, hentries]
  rfl

section Merge

variable (hmerge : ∀ ds es, Q ds → Q es → Q (ds.merge es))
include hmerge

/-- A block that takes over declarations is listed. -/
theorem Merging.Declares.add {m : Merging} (h : m.Declares Q P except) (parent id : BlockId) :
    (m.add parent id).Declares Q P except := by
  unfold Merging.add
  split
  · exact h
  · next b hget =>
    split
    · exact h
    · split
      · exact ⟨h.all, h.others⟩
      · next target _ =>
        have hall : ((m.document.detach parent id).vacate id).Declares Q [] :=
          (h.all.detach parent id).vacate id
        have hothers : ((m.document.detach parent id).vacate id).Declares P (except ++ m.merged) :=
          (h.others.detach parent id).vacate id
        refine ⟨hall.modify fun _ t ht => ?_, (hothers.mono ?_).modify fun hnot t ht => ?_⟩
        · exact hmerge _ _ (hall target t ht not_mem_nil) (h.all id b hget not_mem_nil)
        · refine append_subset.mpr ⟨subset_append_left _ _, ?_⟩
          split
          · exact subset_append_right _ _
          · exact fun x hx => mem_append_right _ (mem_append_left _ hx)
        · -- not listed means that the block has taken over nothing
          obtain ⟨hexcept, hmerged⟩ := not_or.mp (mem_append.not.mp hnot)
          split at hmerged
          · next hlisted =>
            have hempty : b.declarations.isEmpty = true := by simpa [hmerged] using hlisted
            rw [merge_of_isEmpty hempty]
            exact hothers target t ht (mem_append.not.mpr (not_or.mpr ⟨hexcept, hmerged⟩))
          · exact absurd (mem_append_right _ (mem_singleton_self target)) hmerged

theorem mergeNamesFrom_declares (hQ : d.Declares Q []) (hP : d.Declares P except) (depth : Nat) (parent : BlockId) :
    (mergeNamesFrom depth d parent).Declares Q P except := by
  induction depth generalizing d except parent with
  | zero => exact ⟨hQ, by simpa [mergeNamesFrom] using hP⟩
  | succ depth ih =>
    have hstart : Merging.Declares { document := d } Q P except := ⟨hQ, by simpa using hP⟩
    rw [mergeNamesFrom]
    refine foldlRecOn (motive := fun m : Merging => m.Declares Q P except) _ _ ?_ fun m hm id _ => ?_
    · exact foldlRecOn (motive := fun m : Merging => m.Declares Q P except) _ _ hstart
        fun m hm id _ => hm.add hmerge parent id
    · split
      · obtain ⟨hall, hothers⟩ := ih hm.all hm.others id
        exact ⟨hall, by rwa [append_assoc] at hothers⟩
      · exact hm

/-! ## Arranging -/

/-- **Only the listed blocks have other declarations** after the selectors are arranged. -/
theorem arrange_declares (hQ : d.Declares Q []) (hP : d.Declares P []) (mode : SelectorMerge) (discard : Bool) :
    (arrange mode discard d).document.Declares Q [] ∧
      (arrange mode discard d).document.Declares P (arrange mode discard d).merged := by
  have hdiscard {R : Declarations → Prop} (hR : d.Declares R []) :
      (if discard then discardInvalid d root else (d, [])).1.Declares R [] := by
    split
    · exact discardFrom_declares hR _ _
    · exact hR
  have hQ := hdiscard hQ
  have hP := hdiscard hP
  cases hstart : (if discard then discardInvalid d root else (d, [])) with
  | mk d discarded =>
  rw [hstart] at hQ hP
  simp only [arrange, hstart]
  cases mode with
  | off => exact ⟨hQ, hP⟩
  | separate => exact ⟨separateFrom_declares hQ _ _, separateFrom_declares hP _ _⟩
  | adjacent => exact ⟨groupFrom_declares true hQ _ _, groupFrom_declares true hP _ _⟩
  | all =>
    obtain ⟨hall, hothers⟩ := mergeNamesFrom_declares hmerge hQ hP d.maxDepth root
    exact ⟨groupFrom_declares false hall _ _, groupFrom_declares false hothers _ _⟩

end Merge

end Stylesheet.Selector
