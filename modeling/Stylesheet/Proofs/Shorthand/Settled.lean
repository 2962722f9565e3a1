import Stylesheet.Proofs.Shorthand.Corners
import Stylesheet.Proofs.Shorthand.Effective

/-!
# A block that is in order

A group is *settled* in a block if none of the three passes has anything to do for it: its shorthand does not have to be
dissolved, its longhands cannot be gathered, and no word of the shorthand can be left out. Dissolving makes room for
gathering, and neither is undone by what comes after it, so one run of the passes settles every group
(`settled_passes`). A second run has nothing to say then and changes at most the corners, and if these are plain it
changes nothing (`tidyBlock_common_settles`).
-/

namespace Stylesheet.Shorthand

open Declarations Text List Group

variable {g : Group} {d e : Declarations}

/-! ## Settled groups -/

/-- The shorthand does not stand beside one of its longhands, or cannot be dissolved. -/
def Group.Apart (g : Group) (d : Declarations) : Prop :=
  g.longhands.any d.contains = true → (d.get? g.shorthand).bind g.dissolve? = none

/-- No pass has anything to do for the group. Pairs are gathered only. -/
structure Group.Settled (g : Group) (d : Declarations) : Prop where
  apart : g ∈ boxGroups → g.Apart d
  gathered : g.gathered? d = none
  short : g ∈ boxGroups → ∀ value ∈ d.get? g.shorthand, compress value.text = value.text

theorem allValues?_congr {names : List String} (h : ∀ name ∈ names, e.get? name = d.get? name) :
    allValues? e names = allValues? d names := by
  unfold allValues?
  induction names with
  | nil => rfl
  | cons name names ih =>
    obtain ⟨hname, hnames⟩ := forall_mem_cons.mp h
    rw [mapM_cons, mapM_cons, hname, ih hnames]

section View

variable (hview : e.view g.names.contains = d.view g.names.contains)
include hview

theorem Group.any_longhands_eq_of_view_eq : g.longhands.any e.contains = g.longhands.any d.contains := by
  rw [Bool.eq_iff_iff, any_eq_true, any_eq_true]
  refine exists_congr fun longhand => and_congr_right fun hlonghand => ?_
  rw [contains_eq_of_view_eq hview (by simp [names, hlonghand])]

theorem Group.get?_shorthand_eq_of_view_eq : e.get? g.shorthand = d.get? g.shorthand :=
  get?_eq_of_view_eq hview (by simp [names])

theorem Group.Apart.of_view_eq (h : g.Apart d) : g.Apart e := by
  rw [Group.Apart, g.any_longhands_eq_of_view_eq hview, g.get?_shorthand_eq_of_view_eq hview]
  exact h

theorem Group.gathered?_eq_of_view_eq : g.gathered? e = g.gathered? d := by
  have hshorthand : e.contains g.shorthand = d.contains g.shorthand :=
    contains_eq_of_view_eq hview (by simp [names])
  have hvalues : allValues? e g.longhands = allValues? d g.longhands :=
    allValues?_congr fun longhand hlonghand => get?_eq_of_view_eq hview (by simp [names, hlonghand])
  simp only [gathered?, hshorthand, hvalues]

theorem Group.Settled.of_view_eq (h : g.Settled d) : g.Settled e where
  apart hbox := (h.apart hbox).of_view_eq hview
  gathered := (g.gathered?_eq_of_view_eq hview).trans h.gathered
  short hbox := by
    rw [g.get?_shorthand_eq_of_view_eq hview]
    exact h.short hbox

end View

/-! ## One step of each pass -/

theorem get?_eq_none_of_notMem {property : String} (h : property ∉ d.entries.map Prod.fst) : d.get? property = none := by
  rw [Option.eq_none_iff_forall_ne_some]
  intro value hvalue
  exact h (contains_iff_mem.mp (contains_iff_get?.mpr ⟨value, hvalue⟩))

/-- A shorthand that is dissolved is gone. -/
theorem apart_dissolveBeside (hbox : g.longhands.length = 4) (hnodup : g.names.Nodup) (d : Declarations) :
    g.Apart (dissolveBeside d g) := by
  obtain ⟨hshorthand, hlonghands⟩ := nodup_cons.mp hnodup
  intro hany
  unfold dissolveBeside at hany ⊢
  split at hany
  · next hbeside =>
    rw [if_pos hbeside]
    split
    · next longhands hdissolve =>
      obtain ⟨value, hvalue, hdissolve⟩ := Option.bind_eq_some_iff.mp hdissolve
      obtain ⟨front, back, hentries⟩ := exists_entries hvalue
      rw [← map_fst_dissolve? hbox hdissolve] at hshorthand hlonghands
      rw [get?_eq_none_of_notMem (notMem_dissolveInto hentries hlonghands hshorthand), Option.bind_none]
    · next hdissolve => exact hdissolve
  · next hbeside => exact absurd hany hbeside

/-- Gathered longhands are gone, and the shorthand is there. -/
theorem contains_gatherIn {value : Value} (hnodup : g.names.Nodup) (h : g.gathered? d = some value) :
    g.longhands.any (gatherIn d g).contains = false ∧ (gatherIn d g).contains g.shorthand = true := by
  obtain ⟨hshorthand, -⟩ := nodup_cons.mp hnodup
  have hgather : gatherIn d g = gather d g.longhands g.shorthand value := by rw [gatherIn, h]
  rw [hgather, gather]
  constructor
  · rw [any_eq_false]
    intro longhand hlonghand hcontains
    rcases mem_map_insertAt.mp (contains_iff_mem.mp hcontains) with rfl | herased
    · exact hshorthand hlonghand
    · rw [entries_eraseAll, mem_map_withoutAll] at herased
      exact herased.2 hlonghand
  · exact contains_iff_mem.mpr (mem_map_insertAt.mpr (.inl rfl))

theorem gathered?_of_contains (h : d.contains g.shorthand = true) : g.gathered? d = none := if_pos h

/-- Gathering leaves nothing to be gathered. -/
theorem gathered?_gatherIn (hnodup : g.names.Nodup) (d : Declarations) : g.gathered? (gatherIn d g) = none := by
  cases h : g.gathered? d with
  | none => rw [gatherIn, h, h]
  | some value => exact gathered?_of_contains (contains_gatherIn hnodup h).2

/-- Gathering leaves nothing to be dissolved. -/
theorem Group.Apart.gatherIn (hnodup : g.names.Nodup) (h : g.Apart d) : g.Apart (gatherIn d g) := by
  cases hgathered : g.gathered? d with
  | none =>
    rw [Shorthand.gatherIn, hgathered]
    exact h
  | some value =>
    intro hany
    rw [(contains_gatherIn hnodup hgathered).1] at hany
    exact absurd hany Bool.false_ne_true

/-- Leaving words out of the shorthand of a box settles the group, if the passes before have done their part. -/
theorem settled_compressIn (hapart : g.Apart d) (hgathered : g.gathered? d = none) : g.Settled (compressIn d g) := by
  unfold compressIn
  split
  · next value hvalue =>
    have hcontains : (d.set g.shorthand { value with text := compress value.text }).contains = d.contains := by
      funext property
      rw [Bool.eq_iff_iff, contains_iff_mem, contains_iff_mem, map_fst_set hvalue]
    obtain ⟨front, back, hentries⟩ := exists_entries hvalue
    have hget : (d.set g.shorthand { value with text := compress value.text }).get? g.shorthand
        = some { value with text := compress value.text } := get?_of_entries (entries_set hentries)
    refine ⟨fun _ hany => ?_, gathered?_of_contains (contains_iff_get?.mpr ⟨_, hget⟩), fun _ v hv => ?_⟩
    · rw [hcontains] at hany
      have hnone := hapart hany
      rw [hvalue, Option.bind_some, dissolve?, Option.map_eq_none_iff] at hnone
      rw [hget, Option.bind_some, dissolve?, words_compress, sideWords_compressWords, hnone, Option.map_none]
    · obtain rfl := Option.some.inj (hget.symm.trans hv)
      exact compress_compress value.text
  · next hnone =>
    exact ⟨fun _ => hapart, hgathered, fun _ v hv => absurd (hv.symm.trans hnone) (Option.some_ne_none v)⟩

/-! ## All passes -/

theorem apart_dissolved (hbox : g ∈ boxGroups) (d : Declarations) : g.Apart (boxGroups.foldl dissolveBeside d) := by
  have hg : g ∈ boxGroups ++ pairGroups := mem_append_left _ hbox
  obtain ⟨e, -, hview⟩ := isLocal_dissolveBeside.exists_step hbox nodup_boxGroups
    (names_apart hg (subset_append_left boxGroups pairGroups)) d
  exact (apart_dissolveBeside (length_of_mem_boxGroups g hbox) (nodup_names g hg) e).of_view_eq hview

theorem gathered?_gathered (hg : g ∈ boxGroups ++ pairGroups) (d : Declarations) :
    g.gathered? ((boxGroups ++ pairGroups).foldl gatherIn d) = none ∧
      (g.Apart d → g.Apart ((boxGroups ++ pairGroups).foldl gatherIn d)) := by
  obtain ⟨e, he, hview⟩ := isLocal_gatherIn.exists_step hg nodup_groups (names_apart hg (List.Subset.refl _)) d
  refine ⟨(g.gathered?_eq_of_view_eq hview).trans (gathered?_gatherIn (nodup_names g hg) e), fun h => ?_⟩
  exact ((h.of_view_eq he).gatherIn (nodup_names g hg)).of_view_eq hview

/-- **One run of the passes settles every group.** -/
theorem settled_passes (hg : g ∈ boxGroups ++ pairGroups) (d : Declarations) : g.Settled (passes d) := by
  have hapart := names_apart hg (subset_append_left boxGroups pairGroups)
  obtain ⟨hgathered, hkept⟩ := gathered?_gathered hg (boxGroups.foldl dissolveBeside d)
  unfold passes
  generalize (boxGroups ++ pairGroups).foldl gatherIn (boxGroups.foldl dissolveBeside d) = e at hgathered hkept ⊢
  by_cases hbox : g ∈ boxGroups
  · obtain ⟨f, hf, hview⟩ := isLocal_compressIn.exists_step hbox nodup_boxGroups hapart e
    have hready : g.Apart f := (hkept (apart_dissolved hbox d)).of_view_eq hf
    exact (settled_compressIn hready ((g.gathered?_eq_of_view_eq hf).trans hgathered)).of_view_eq hview
  · have hview := isLocal_compressIn.view_foldl
      (fun other hother => hapart other hother fun heq => hbox (heq ▸ hother)) e
    have hpair : g.Settled e := ⟨fun h => absurd h hbox, hgathered, fun h => absurd h hbox⟩
    exact hpair.of_view_eq hview

/-! ## A second run -/

theorem set_eq_self {property : String} {value : Value} (h : d.get? property = some value) : d.set property value = d := by
  obtain ⟨front, back, hentries⟩ := exists_entries h
  exact eq_of_entries_eq ((entries_set hentries).trans hentries.symm)

theorem dissolveBeside_of_apart (h : g.Apart d) : dissolveBeside d g = d := by
  unfold dissolveBeside
  split
  · next hany => rw [h hany]
  · rfl

theorem compressIn_of_settled (hbox : g ∈ boxGroups) (h : g.Settled d) : compressIn d g = d := by
  unfold compressIn
  split
  · next value hvalue =>
    rw [h.short hbox value hvalue]
    exact set_eq_self hvalue
  · rfl

theorem foldl_eq_self {step : Declarations → Group → Declarations} {groups : List Group}
    (h : ∀ g ∈ groups, step d g = d) : groups.foldl step d = d := by
  induction groups with
  | nil => rfl
  | cons g groups ih =>
    obtain ⟨hg, hgroups⟩ := forall_mem_cons.mp h
    rw [foldl_cons, hg, ih hgroups]

theorem gatherGroups_of_settled {groups : List Group} (h : ∀ g ∈ groups, g.gathered? d = none) :
    gatherGroups d groups = (d, []) := by
  induction groups with
  | nil => rfl
  | cons g groups ih =>
    obtain ⟨hg, hgroups⟩ := forall_mem_cons.mp h
    rw [gatherGroups, hg]
    exact ih hgroups

/-- Where every group is settled, the passes have nothing to do but for the corners. -/
theorem tidyBlock_of_settled (h : ∀ g ∈ boxGroups ++ pairGroups, g.Settled d) :
    tidyBlock .common d = (compressCorners d, []) := by
  have hboxes : ∀ g ∈ boxGroups, g.Settled d := fun g hg => h g (mem_append_left _ hg)
  have hdissolved : dissolveAll .common d = d :=
    foldl_eq_self fun g hg => dissolveBeside_of_apart ((hboxes g hg).apart hg)
  have hgathered := gatherGroups_of_settled fun g hg => (h g hg).gathered
  have hcompressed : compressBoxes d = d := foldl_eq_self fun g hg => compressIn_of_settled hg (hboxes g hg)
  have hfont : ShorthandLevel.common.includes .font = false := rfl
  have hbackground : ShorthandLevel.common.includes .background = false := rfl
  by_cases hempty : d.isEmpty
  · have hd : d = Declarations.empty := eq_of_entries_eq (isEmpty_iff.mp hempty)
    rw [hd]
    rfl
  · simp [tidyBlock, hempty, gatherWith, hdissolved, hgathered, hcompressed, hfont, hbackground]

/-- The text for the corners is plain. -/
def PlainCorners (d : Declarations) : Prop := ∀ value ∈ d.get? "border-radius", Plain value.text

instance (d : Declarations) : Decidable (PlainCorners d) :=
  inferInstanceAs (Decidable (∀ value ∈ d.get? "border-radius", Plain value.text))

theorem get?_compressCorners (d : Declarations) :
    (compressCorners d).get? "border-radius"
      = (d.get? "border-radius").map fun value => { value with text := compressRadius value.text } := by
  unfold compressCorners
  split
  · next value hvalue =>
    obtain ⟨front, back, hentries⟩ := exists_entries hvalue
    rw [get?_of_entries (entries_set hentries), hvalue, Option.map_some]
  · next hnone => rw [hnone, Option.map_none]

theorem compressCorners_compressCorners (h : PlainCorners d) :
    compressCorners (compressCorners d) = compressCorners d := by
  have hget := get?_compressCorners d
  cases hvalue : d.get? "border-radius" with
  | none =>
    have hkept : compressCorners d = d := by rw [compressCorners, hvalue]
    rw [hkept, hkept]
  | some value =>
    rw [hvalue, Option.map_some] at hget
    rw [compressCorners, hget]
    dsimp only
    rw [compressRadius_compressRadius (h value hvalue), set_eq_self hget]

/-- No pass over the groups touches the corners. -/
theorem get?_corners_passes (d : Declarations) : (passes d).get? "border-radius" = d.get? "border-radius" := by
  have hgroups : ∀ g ∈ boxGroups ++ pairGroups, ∀ name ∈ g.names, (name == "border-radius") = false := by decide
  have hboxes : ∀ g ∈ boxGroups, ∀ name ∈ g.names, (name == "border-radius") = false :=
    fun g hg => hgroups g (mem_append_left _ hg)
  have hview : (passes d).view (· == "border-radius") = d.view (· == "border-radius") := by
    rw [passes, isLocal_compressIn.view_foldl hboxes, isLocal_gatherIn.view_foldl hgroups,
      isLocal_dissolveBeside.view_foldl hboxes]
  exact get?_eq_of_view_eq hview rfl

theorem PlainCorners.tidyBlock (h : PlainCorners d) : PlainCorners (tidyBlock .common d).1 := by
  intro value hvalue
  rw [tidyBlock_common, get?_compressCorners, get?_corners_passes] at hvalue
  obtain ⟨v, hv, rfl⟩ := Option.map_eq_some_iff.mp hvalue
  exact plain_compressRadius (h v hv)

/-- One run settles every group of a block. -/
theorem settled_tidyBlock (hg : g ∈ boxGroups ++ pairGroups) (d : Declarations) :
    g.Settled (tidyBlock .common d).1 := by
  rw [tidyBlock_common]
  exact (settled_passes hg d).of_view_eq (view_compressCorners (corners_notMem_names g hg) _)

/-- **A block that was tidied stays as it is,** if its corners are plain. -/
theorem tidyBlock_tidyBlock (h : PlainCorners d) :
    tidyBlock .common (tidyBlock .common d).1 = ((tidyBlock .common d).1, []) := by
  have hplain : PlainCorners (passes d) := by
    intro value hvalue
    rw [get?_corners_passes] at hvalue
    exact h value hvalue
  have hcorners : compressCorners (tidyBlock .common d).1 = (tidyBlock .common d).1 := by
    rw [tidyBlock_common]
    exact compressCorners_compressCorners hplain
  rw [tidyBlock_of_settled fun g hg => settled_tidyBlock hg d, hcorners]

/-- **One run over a block is enough.** It settles every group, whatever the block declares, so that a second run has
nothing to say and can at most change the corners. If these are plain, it changes nothing at all. -/
theorem tidyBlock_common_settles (d : Declarations) :
    (∀ g ∈ boxGroups ++ pairGroups, g.Settled (tidyBlock .common d).1) ∧
      tidyBlock .common (tidyBlock .common d).1 = (compressCorners (tidyBlock .common d).1, []) ∧
      (PlainCorners d → tidyBlock .common (tidyBlock .common d).1 = ((tidyBlock .common d).1, [])) := by
  have hsettled := fun g hg => @settled_tidyBlock g hg d
  exact ⟨hsettled, tidyBlock_of_settled hsettled, tidyBlock_tidyBlock⟩

/-- Shorthands beside their longhands: one is dissolved and gathered anew, one stays dissolved since a side of it is
important, and one has too many words to be dissolved. -/
def besideLonghands : Declarations :=
  .ofList [("margin", ⟨"1px 1px 1px 1px", false⟩), ("margin-top", ⟨"2px", false⟩), ("padding", ⟨"var(--a) 1px", false⟩),
    ("padding-left", ⟨"0", true⟩), ("border-style", ⟨"a b c d e", false⟩), ("border-top-style", ⟨"solid", false⟩),
    ("border-radius", ⟨"1px 1px / 2px 2px", true⟩)]

theorem tidyBlock_common_settles_besideLonghands :
    PlainCorners besideLonghands ∧
      tidyBlock .common (tidyBlock .common besideLonghands).1 = ((tidyBlock .common besideLonghands).1, []) ∧
      (tidyBlock .common besideLonghands).1.entries
        = [("margin", ⟨"2px 1px 1px", false⟩), ("padding-top", ⟨"var(--a)", false⟩), ("padding-right", ⟨"1px", false⟩),
          ("padding-bottom", ⟨"var(--a)", false⟩), ("padding-left", ⟨"0", true⟩),
          ("border-style", ⟨"a b c d e", false⟩), ("border-top-style", ⟨"solid", false⟩),
          ("border-radius", ⟨"1px/2px", true⟩)] := by
  have hplain : PlainCorners besideLonghands := by decide +kernel
  exact ⟨hplain, (tidyBlock_common_settles besideLonghands).2.2 hplain, by decide +kernel⟩

end Stylesheet.Shorthand
