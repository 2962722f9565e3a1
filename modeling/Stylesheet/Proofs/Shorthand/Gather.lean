import Stylesheet.Shorthand.Group
import Stylesheet.Proofs.Declarations.Entries

/-!
# What gathering leaves

A gathered shorthand stands where the first of its longhands stood, and the longhands are gone (`entries_gather`).
-/

namespace Stylesheet.Shorthand

open Declarations List

variable {shorthand : String} {value : Value}
variable {d : Declarations} {names : List String} {front back : List Declaration} {first : String} {w : Value}

theorem entries_eraseAll (d : Declarations) (names : List String) :
    (eraseAll d names).entries = withoutAll d.entries names := by
  induction names generalizing d with
  | nil => simp [eraseAll]
  | cons name names ih => exact (ih (d.erase name)).trans (withoutAll_without _ _ _)

theorem le_of_position? {name : String} {i : Nat} (h : d.entries = front ++ back) (hname : name ∉ front.map Prod.fst)
    (hi : d.position? name = some i) : front.length ≤ i := by
  rw [position?, h, findIdx?_append, findIdx?_of_notMem hname, Option.none_or] at hi
  obtain ⟨j, -, rfl⟩ := Option.map_eq_some_iff.mp hi
  omega

/-- The first place of one of the properties, with none of them in front of it. -/
theorem firstPlace_eq (h : d.entries = front ++ (first, w) :: back) (hfirst : first ∈ names)
    (hfront : ∀ x ∈ front, x.1 ∉ names) : firstPlace d names = front.length := by
  have hmin : (names.filterMap d.position?).min? = some front.length := by
    rw [min?_eq_some_iff]
    constructor
    · exact mem_filterMap.mpr ⟨first, hfirst, position?_of_entries h⟩
    · intro i hi
      obtain ⟨name, hname, hposition⟩ := mem_filterMap.mp hi
      refine le_of_position? h ?_ hposition
      intro hmem
      obtain ⟨x, hx, rfl⟩ := mem_map.mp hmem
      exact hfront x hx hname
  rw [firstPlace, hmin, Option.getD_some]

/-- **The entries after gathering.** The shorthand stands in the place of the first longhand. -/
theorem entries_gather (h : d.entries = front ++ (first, w) :: back)
    (hfirst : first ∈ names) (hfront : ∀ x ∈ front, x.1 ∉ names) (hshorthand : shorthand ∉ d.entries.map Prod.fst) :
    (gather d names shorthand value).entries = front ++ (shorthand, value) :: withoutAll back names := by
  have herased : (eraseAll d names).entries = front ++ withoutAll back names := by
    have hself : withoutAll [(first, w)] names = [] := by simp [withoutAll, hfirst]
    rw [entries_eraseAll, h, ← singleton_append, withoutAll_append, withoutAll_append, hself,
      withoutAll_of_forall hfront, nil_append]
  have hwithout : without (eraseAll d names).entries shorthand = front ++ withoutAll back names := by
    rw [← herased]
    refine without_of_notMem fun hmem => hshorthand ?_
    rw [entries_eraseAll] at hmem
    exact (filter_sublist.map _).subset hmem
  rw [gather, firstPlace_eq h hfirst hfront]
  exact entries_insertAt hwithout

/-- Where a block has nothing but longhands, the shorthand is left alone. -/
theorem entries_gather_of_forall_mem (h : ∀ x ∈ d.entries, x.1 ∈ names) :
    (gather d names shorthand value).entries = [(shorthand, value)] := by
  have hnone : withoutAll d.entries names = [] := by
    rw [withoutAll, filter_eq_nil_iff]
    simpa using h
  have herased : (eraseAll d names).entries = [] := (entries_eraseAll d names).trans hnone
  simp [gather, insertAt, placed, without, herased]

/-- Some property of a list that the block has stands in front of all others of the list. -/
theorem exists_first {name : String} (hname : name ∈ names) (hmem : name ∈ d.entries.map Prod.fst) :
    ∃ front first w back, d.entries = front ++ (first, w) :: back ∧ first ∈ names ∧ ∀ x ∈ front, x.1 ∉ names := by
  obtain ⟨x, hx, rfl⟩ := mem_map.mp hmem
  have hsome : (d.entries.find? fun y => names.contains y.1).isSome :=
    find?_isSome.mpr ⟨x, hx, contains_iff_mem.mpr hname⟩
  obtain ⟨⟨first, w⟩, hfind⟩ := Option.isSome_iff_exists.mp hsome
  obtain ⟨hfirst, front, back, hentries, hfront⟩ := find?_eq_some_iff_append.mp hfind
  exact ⟨front, first, w, back, hentries, by simpa using hfirst, by simpa using hfront⟩

/-! ## What is left alone -/

variable {keep : String → Bool}

theorem view_eraseAll (h : ∀ name ∈ names, keep name = false) : (eraseAll d names).view keep = d.view keep := by
  induction names generalizing d with
  | nil => rfl
  | cons name names ih =>
    rw [forall_mem_cons] at h
    exact (ih h.2).trans (view_erase h.1)

theorem view_gather (hshorthand : keep shorthand = false)
    (hnames : ∀ name ∈ names, keep name = false) : (gather d names shorthand value).view keep = d.view keep :=
  (view_insertAt hshorthand _).trans (view_eraseAll hnames)

end Stylesheet.Shorthand
