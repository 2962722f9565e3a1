import Stylesheet.Shorthand.Block
import Stylesheet.Proofs.Shorthand.Dissolve
import Stylesheet.Proofs.Shorthand.Gather

/-!
# The passes over a block

At the level of the common shorthands a block goes through three passes over the groups: each group is dissolved, then
gathered, then compressed. What a pass does with a group is seen in the entries of the group only (`IsLocal`), and no
property belongs to two groups. So, as far as one group goes, a pass does what its step for that group does
(`IsLocal.exists_step`).
-/

namespace Stylesheet.Shorthand

open Declarations List

/-- The shorthand and its longhands. -/
def Group.names (g : Group) : List String := g.shorthand :: g.longhands

/-! ## Three passes -/

/-- Gathers the longhands of one group, if they can be gathered. -/
def gatherIn (d : Declarations) (g : Group) : Declarations :=
  match g.gathered? d with
  | some value => gather d g.longhands g.shorthand value
  | none => d

theorem gatherGroups_fst (d : Declarations) (groups : List Group) :
    (gatherGroups d groups).1 = groups.foldl gatherIn d := by
  induction groups generalizing d with
  | nil => rfl
  | cons g groups ih =>
    rw [gatherGroups, foldl_cons, gatherIn]
    cases g.gathered? d with
    | none => exact ih d
    | some value => exact ih _

/-- Leaves words out of the shorthand of one group. -/
def compressIn (d : Declarations) (g : Group) : Declarations :=
  match d.get? g.shorthand with
  | some value => d.set g.shorthand { value with text := compress value.text }
  | none => d

/-- Dissolves, gathers and compresses every group. -/
def passes (d : Declarations) : Declarations :=
  boxGroups.foldl compressIn ((boxGroups ++ pairGroups).foldl gatherIn (boxGroups.foldl dissolveBeside d))

theorem tidyBlock_common (d : Declarations) : (tidyBlock .common d).1 = compressCorners (passes d) := by
  by_cases hempty : d.isEmpty
  · have hd : d = Declarations.empty := eq_of_entries_eq (isEmpty_iff.mp hempty)
    rw [hd]
    rfl
  · have hpasses : compressBoxes (gatherGroups (dissolveAll .common d) (boxGroups ++ pairGroups)).1 = passes d := by
      rw [gatherGroups_fst]
      rfl
    have hfont : ShorthandLevel.common.includes .font = false := rfl
    have hbackground : ShorthandLevel.common.includes .background = false := rfl
    simp [tidyBlock, hempty, gatherWith, hfont, hbackground, hpasses]

/-! ## What a pass leaves alone -/

/-- A step for a group changes nothing but entries of the group. -/
def IsLocal (step : Declarations → Group → Declarations) : Prop :=
  ∀ d g keep, (∀ name ∈ g.names, keep name = false) → (step d g).view keep = d.view keep

theorem names_of_dissolve? {g : Group} {value : Value} {longhands : List Declaration}
    (h : g.dissolve? value = some longhands) : ∀ x ∈ longhands, x.1 ∈ g.longhands := by
  obtain ⟨words, -, rfl⟩ := Option.map_eq_some_iff.mp h
  intro x hx
  obtain ⟨y, hy, rfl⟩ := mem_map.mp hx
  exact (of_mem_zip hy).1

theorem isLocal_dissolveBeside : IsLocal dissolveBeside := by
  intro d g keep hkeep
  obtain ⟨hshorthand, hlonghands⟩ := forall_mem_cons.mp hkeep
  unfold dissolveBeside
  split
  · split
    · next longhands hdissolve =>
      obtain ⟨value, -, hvalue⟩ := Option.bind_eq_some_iff.mp hdissolve
      exact view_dissolveInto hshorthand fun x hx => hlonghands _ (names_of_dissolve? hvalue x hx)
    · rfl
  · rfl

theorem isLocal_gatherIn : IsLocal gatherIn := by
  intro d g keep hkeep
  obtain ⟨hshorthand, hlonghands⟩ := forall_mem_cons.mp hkeep
  unfold gatherIn
  split
  · exact view_gather hshorthand hlonghands
  · rfl

theorem isLocal_compressIn : IsLocal compressIn := by
  intro d g keep hkeep
  obtain ⟨hshorthand, -⟩ := forall_mem_cons.mp hkeep
  unfold compressIn
  split
  · exact view_set hshorthand
  · rfl

theorem view_compressCorners {keep : String → Bool} (h : keep "border-radius" = false) (d : Declarations) :
    (compressCorners d).view keep = d.view keep := by
  unfold compressCorners
  split
  · exact view_set h
  · rfl

variable {step : Declarations → Group → Declarations} {keep : String → Bool} {groups : List Group}

theorem IsLocal.view_foldl (hstep : IsLocal step) (h : ∀ g ∈ groups, ∀ name ∈ g.names, keep name = false)
    (d : Declarations) : (groups.foldl step d).view keep = d.view keep := by
  induction groups generalizing d with
  | nil => rfl
  | cons g groups ih =>
    rw [forall_mem_cons] at h
    rw [foldl_cons, ih h.2, hstep d g keep h.1]

/-- **A pass in the view of one group** is the step for that group. -/
theorem IsLocal.exists_step (hstep : IsLocal step) {g : Group} (hg : g ∈ groups) (hnodup : groups.Nodup)
    (h : ∀ other ∈ groups, other ≠ g → ∀ name ∈ other.names, keep name = false) (d : Declarations) :
    ∃ e, e.view keep = d.view keep ∧ (groups.foldl step d).view keep = (step e g).view keep := by
  obtain ⟨front, back, rfl⟩ := append_of_mem hg
  rw [nodup_middle, nodup_cons, mem_append, not_or] at hnodup
  have hfront : ∀ other ∈ front, ∀ name ∈ other.names, keep name = false := fun other hother =>
    h other (mem_append_left _ hother) (by rintro rfl; exact hnodup.1.1 hother)
  have hback : ∀ other ∈ back, ∀ name ∈ other.names, keep name = false := fun other hother =>
    h other (mem_append_right _ (mem_cons_of_mem _ hother)) (by rintro rfl; exact hnodup.1.2 hother)
  refine ⟨front.foldl step d, hstep.view_foldl hfront d, ?_⟩
  rw [foldl_append, foldl_cons, hstep.view_foldl hback]

/-! ## The groups -/

theorem nodup_groups : (boxGroups ++ pairGroups).Nodup := by decide

theorem nodup_boxGroups : boxGroups.Nodup := by decide

theorem length_of_mem_boxGroups : ∀ g ∈ boxGroups, g.longhands.length = 4 := by decide

theorem length_of_mem_pairGroups : ∀ g ∈ pairGroups, g.longhands.length = 2 := by decide

/-- No property occurs twice in a group. -/
theorem nodup_names : ∀ g ∈ boxGroups ++ pairGroups, g.names.Nodup := by decide

/-- No property belongs to two groups. -/
theorem names_disjoint : ∀ g ∈ boxGroups ++ pairGroups, ∀ other ∈ boxGroups ++ pairGroups, other ≠ g →
    ∀ name ∈ other.names, name ∉ g.names := by decide

end Stylesheet.Shorthand
