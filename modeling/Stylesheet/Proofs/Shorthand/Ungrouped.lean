import Stylesheet.Proofs.Shorthand.Settled

/-!
# Blocks without groups

If none of its properties belongs to a group or gives the corners, a block is settled, and all that is done with it has to do
with `font` and `background` (`fst_tidyBlock`).
-/

namespace Stylesheet.Shorthand

open Declarations

variable {d e : Declarations} {g : Group} {level : ShorthandLevel}

/-- No property belongs to a group or gives the corners. -/
structure Ungrouped (d : Declarations) : Prop where
  groups : ∀ g ∈ boxGroups ++ pairGroups, ∀ name ∈ g.names, d.contains name = false
  corners : d.contains "border-radius" = false

/-- Properties that belong to no group and do not give the corners. -/
def outsideGroups (names : List String) : Bool :=
  names.all fun name => (boxGroups ++ pairGroups).all (fun g => !g.names.contains name) && name != "border-radius"

theorem ungrouped_of_forall_mem {names : List String} (hnames : outsideGroups names = true)
    (h : ∀ x ∈ d.entries, x.1 ∈ names) : Ungrouped d := by
  have hfalse {name : String} (hname : name ∉ names) : d.contains name = false := by
    rw [Bool.eq_false_iff]
    intro hcontains
    obtain ⟨x, hx, rfl⟩ := List.mem_map.mp (contains_iff_mem.mp hcontains)
    exact hname (h x hx)
  have houtside := List.all_eq_true.mp hnames
  constructor
  · refine fun g hg name hname => hfalse fun hmem => ?_
    have hgroups := List.all_eq_true.mp (Bool.and_eq_true_iff.mp (houtside name hmem)).1 g hg
    simp [hname] at hgroups
  · refine hfalse fun hmem => ?_
    have hcorners := (Bool.and_eq_true_iff.mp (houtside _ hmem)).2
    simp at hcorners

theorem get?_eq_none_of_contains {name : String} (h : d.contains name = false) : d.get? name = none :=
  get?_eq_none_of_notMem fun hmem => absurd (h.symm.trans (contains_iff_mem.mpr hmem)) (by decide)

/-- A group that a block has nothing of is settled. -/
theorem Ungrouped.settled (h : Ungrouped d) (hg : g ∈ boxGroups ++ pairGroups) : g.Settled d := by
  have hnone (name : String) (hname : name ∈ g.names) : d.get? name = none :=
    get?_eq_none_of_contains (h.groups g hg name hname)
  have hshorthand := hnone g.shorthand List.mem_cons_self
  refine ⟨fun _ _ => by rw [hshorthand, Option.bind_none], ?_, fun _ value hvalue => ?_⟩
  · have hsome : ∀ g ∈ boxGroups ++ pairGroups, g.longhands ≠ [] := by decide
    obtain ⟨longhand, longhands, hlonghands⟩ := List.exists_cons_of_ne_nil (hsome g hg)
    have hmissing : allValues? d g.longhands = none := by
      rw [allValues?, hlonghands, List.mapM_cons, hnone longhand (by simp [Group.names, hlonghands])]
      rfl
    simp [Group.gathered?, hmissing]
  · exact absurd (hvalue.symm.trans hshorthand) (Option.some_ne_none value)

theorem Ungrouped.dissolveBoxes (h : Ungrouped d) : boxGroups.foldl dissolveBeside d = d :=
  foldl_eq_self fun _ hg => dissolveBeside_of_apart ((h.settled (List.mem_append_left _ hg)).apart hg)

/-- **A block without groups:** only `font` and `background` can be gathered in it. -/
theorem fst_tidyBlock (hlevel : level ≠ .off) (hne : d.isEmpty = false) (hdissolved : dissolveAll level d = e)
    (h : Ungrouped e) :
    (tidyBlock level d).1 =
      (gatherWith (level.includes .background) gatherBackground? "background"
        (gatherWith (level.includes .font) gatherFont? "font" e).1).1 := by
  have hgathered := gatherGroups_of_settled fun g hg => (h.settled hg).gathered
  have hcompressed : compressBoxes e = e :=
    foldl_eq_self fun g hg => compressIn_of_settled hg (h.settled (List.mem_append_left _ hg))
  have hcorners : compressCorners e = e := by rw [compressCorners, get?_eq_none_of_contains h.corners]
  have hoff : (level == .off) = false := beq_eq_false_iff_ne.mpr hlevel
  simp only [tidyBlock, hoff, hne, Bool.or_self, Bool.false_eq_true, if_false, hdissolved, hgathered, hcompressed, hcorners]

end Stylesheet.Shorthand
