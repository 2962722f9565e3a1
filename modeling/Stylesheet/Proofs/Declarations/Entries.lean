import Stylesheet.Proofs.Cascade
import Mathlib.Data.List.Nodup

/-!
# The entries of a block

Since no property occurs twice, the entries around one property are known not to have it: looking it up, finding its
place and removing it are then read off the entries (`position?_of_entries`, `entries_erase`).

What an operation does to one property leaves the others as they are. A *view* are the entries of some properties only,
and an operation on any other property does not change it (`view_insertAt`, `view_erase`, `view_set`).
-/

namespace Stylesheet.Declarations

open List

variable {entries l : List Declaration} {names : List String}
variable {d e : Declarations} {property : String} {value : Value} {front back : List Declaration}

theorem eq_of_entries_eq (h : d.entries = e.entries) : d = e := by
  cases d
  cases e
  congr

/-! ## Looking up -/

theorem contains_iff : d.contains property = true ↔ ∃ value, (property, value) ∈ d.entries := by
  simp [contains]

theorem mem_given : value ∈ given entries property ↔ (property, value) ∈ entries := by
  constructor
  · intro h
    obtain ⟨⟨name, w⟩, hw, rfl⟩ := mem_map.mp h
    obtain ⟨hmem, hname⟩ := mem_filter.mp hw
    rwa [← beq_iff_eq.mp hname]
  · exact fun h => mem_map.mpr ⟨_, mem_filter.mpr ⟨h, beq_self_eq_true property⟩, rfl⟩

theorem given_eq_nil_iff : given entries property = [] ↔ ∀ w, (property, w) ∉ entries := by
  simp only [eq_nil_iff_forall_not_mem, mem_given]

theorem given_append (l m : List Declaration) (property : String) :
    given (l ++ m) property = given l property ++ given m property := by
  rw [given, given, given, filter_append, map_append]

/-- A block gives a property at most one value. -/
theorem given_entries (d : Declarations) (property : String) : given d.entries property = (d.get? property).toList := by
  obtain ⟨entries, hdistinct⟩ := d
  unfold get?
  induction entries with
  | nil => rfl
  | cons e entries ih =>
    rw [map_cons, nodup_cons] at hdistinct
    by_cases he : e.1 = property
    · have hrest : given entries property = [] := by
        rw [given_eq_nil_iff, ← he]
        exact fun w hw => hdistinct.1 (mem_map.mpr ⟨_, hw, rfl⟩)
      have hfirst : given (e :: entries) property = e.2 :: given entries property := by simp [given, he]
      rw [hfirst, hrest, lookup_cons, he, beq_self_eq_true]
      rfl
    · have hfirst : given (e :: entries) property = given entries property := by simp [given, he]
      rw [hfirst, ih hdistinct.2, lookup_cons, beq_eq_false_iff_ne.mpr (Ne.symm he)]

theorem get?_eq_some_iff : d.get? property = some value ↔ (property, value) ∈ d.entries := by
  rw [← Option.mem_toList, ← given_entries, mem_given]

theorem contains_iff_get? : d.contains property = true ↔ ∃ value, d.get? property = some value := by
  simp only [contains_iff, get?_eq_some_iff]

theorem contains_iff_mem : d.contains property = true ↔ property ∈ d.entries.map Prod.fst := by
  simp [contains]

/-! ## Around one property -/

theorem exists_entries (h : d.get? property = some value) :
    ∃ front back, d.entries = front ++ (property, value) :: back :=
  append_of_mem (get?_eq_some_iff.mp h)

theorem exists_middle (h : property ∈ l.map Prod.fst) : ∃ front value back, l = front ++ (property, value) :: back := by
  obtain ⟨⟨name, value⟩, hmem, rfl⟩ := mem_map.mp h
  obtain ⟨front, back, hl⟩ := append_of_mem hmem
  exact ⟨front, value, back, hl⟩

theorem notMem_around (h : d.entries = front ++ (property, value) :: back) :
    property ∉ front.map Prod.fst ∧ property ∉ back.map Prod.fst := by
  have hdistinct := d.distinct
  rw [h, map_append, map_cons, nodup_middle, nodup_cons, mem_append] at hdistinct
  exact not_or.mp hdistinct.1

theorem get?_of_entries (h : d.entries = front ++ (property, value) :: back) : d.get? property = some value := by
  rw [get?_eq_some_iff, h]
  exact mem_append_right _ mem_cons_self

theorem findIdx?_of_notMem (h : property ∉ l.map Prod.fst) : l.findIdx? (·.1 == property) = none := by
  rw [findIdx?_eq_none_iff]
  intro x hx
  rw [beq_eq_false_iff_ne]
  rintro rfl
  exact h (mem_map_of_mem hx)

theorem position?_of_notMem (h : property ∉ d.entries.map Prod.fst) : d.position? property = none :=
  findIdx?_of_notMem h

theorem position?_of_entries (h : d.entries = front ++ (property, value) :: back) :
    d.position? property = some front.length := by
  rw [position?, h, findIdx?_append, findIdx?_of_notMem (notMem_around h).1, findIdx?_cons]
  simp

theorem without_append (l m : List Declaration) (property : String) :
    without (l ++ m) property = without l property ++ without m property :=
  filter_append _ _

theorem without_of_notMem (h : property ∉ l.map Prod.fst) : without l property = l := by
  rw [without, filter_eq_self]
  intro x hx
  rw [bne_iff_ne]
  rintro rfl
  exact h (mem_map_of_mem hx)

theorem without_middle (hfront : property ∉ front.map Prod.fst) (hback : property ∉ back.map Prod.fst) :
    without (front ++ (property, value) :: back) property = front ++ back := by
  have hself : without [(property, value)] property = [] := by simp [without]
  rw [← singleton_append, without_append, without_append, hself, without_of_notMem hfront, without_of_notMem hback,
    nil_append]

theorem without_around (h : d.entries = front ++ (property, value) :: back) :
    without d.entries property = front ++ back := by
  obtain ⟨hfront, hback⟩ := notMem_around h
  rw [h, without_middle hfront hback]

theorem given_of_notMem (h : property ∉ l.map Prod.fst) : given l property = [] :=
  given_eq_nil_iff.mpr fun _ hw => h (mem_map.mpr ⟨_, hw, rfl⟩)

theorem given_middle (hfront : property ∉ front.map Prod.fst) (hback : property ∉ back.map Prod.fst) :
    given (front ++ (property, value) :: back) property = [value] := by
  have hself : given [(property, value)] property = [value] := by simp [given]
  rw [← singleton_append, given_append, given_append, hself, given_of_notMem hfront, given_of_notMem hback]
  rfl

/-- A property is put between two lists of the other entries. -/
theorem entries_insertAt (h : without d.entries property = front ++ back) :
    (d.insertAt front.length property value).entries = front ++ (property, value) :: back := by
  simp only [insertAt, placed, h, take_left, drop_left]

theorem mem_map_insertAt {i : Nat} {name : String} :
    name ∈ (d.insertAt i property value).entries.map Prod.fst ↔ name = property ∨ name ∈ d.entries.map Prod.fst := by
  have hperm : (d.insertAt i property value).entries.Perm ((property, value) :: without d.entries property) := by
    refine perm_middle.trans (List.Perm.cons _ ?_)
    rw [take_append_drop]
  rw [(hperm.map _).mem_iff, map_cons, mem_cons]
  by_cases hname : name = property
  · simp [hname]
  · simp [hname, without]

/-- A value that is replaced stays where it is. -/
theorem entries_set {value' : Value} (h : d.entries = front ++ (property, value) :: back) :
    (d.set property value').entries = front ++ (property, value') :: back := by
  have hcontains : d.contains property = true := contains_iff_get?.mpr ⟨value, get?_of_entries h⟩
  have hkept (l : List Declaration) (hl : property ∉ l.map Prod.fst) : replaced l property value' = l := by
    refine (map_congr_left fun x hx => ?_).trans (map_id _)
    have hne : x.1 ≠ property := by
      rintro rfl
      exact hl (mem_map_of_mem hx)
    simp [hne]
  obtain ⟨hfront, hback⟩ := notMem_around h
  have hsplit : replaced (front ++ (property, value) :: back) property value'
      = replaced front property value' ++ (property, value') :: replaced back property value' := by simp [replaced]
  simp only [set, hcontains, if_true, h, hsplit, hkept front hfront, hkept back hback]

theorem map_fst_set {value' : Value} (h : d.get? property = some value) :
    (d.set property value').entries.map Prod.fst = d.entries.map Prod.fst := by
  obtain ⟨front, back, hentries⟩ := exists_entries h
  rw [entries_set hentries, hentries, map_append, map_append]
  rfl

/-- The entries of all but some properties. -/
def withoutAll (entries : List Declaration) (names : List String) : List Declaration :=
  entries.filter fun x => !names.contains x.1

@[simp] theorem withoutAll_nil (entries : List Declaration) : withoutAll entries [] = entries := by
  simp [withoutAll]

theorem withoutAll_append (l m : List Declaration) (names : List String) :
    withoutAll (l ++ m) names = withoutAll l names ++ withoutAll m names :=
  filter_append _ _

theorem withoutAll_cons (h : property ∉ names) (entries : List Declaration) :
    withoutAll ((property, value) :: entries) names = (property, value) :: withoutAll entries names :=
  filter_cons_of_pos (by simpa using h)

theorem withoutAll_without (entries : List Declaration) (property : String) (names : List String) :
    withoutAll (without entries property) names = withoutAll entries (property :: names) := by
  rw [withoutAll, without, filter_filter]
  refine filter_congr fun x _ => ?_
  rw [contains_cons, Bool.not_or, Bool.and_comm]
  rfl

theorem withoutAll_of_forall (h : ∀ x ∈ entries, x.1 ∉ names) : withoutAll entries names = entries := by
  rw [withoutAll, filter_eq_self]
  simpa using h

theorem mem_withoutAll {x : Declaration} : x ∈ withoutAll entries names ↔ x ∈ entries ∧ x.1 ∉ names := by
  simp [withoutAll]

theorem mem_map_withoutAll :
    property ∈ (withoutAll entries names).map Prod.fst ↔ property ∈ entries.map Prod.fst ∧ property ∉ names := by
  simp only [mem_map, mem_withoutAll]
  constructor
  · rintro ⟨x, ⟨hx, hnames⟩, rfl⟩
    exact ⟨⟨x, hx, rfl⟩, hnames⟩
  · rintro ⟨⟨x, hx, rfl⟩, hnames⟩
    exact ⟨x, ⟨hx, hnames⟩, rfl⟩

theorem given_withoutAll (entries : List Declaration) (names : List String) (property : String) :
    given (withoutAll entries names) property = if property ∈ names then [] else given entries property := by
  split
  · next hmem =>
    rw [given_eq_nil_iff]
    exact fun w hw => (mem_withoutAll.mp hw).2 hmem
  · next hmem =>
    rw [given, withoutAll, filter_filter, given]
    congr 1
    refine filter_congr fun x _ => ?_
    by_cases hx : x.1 = property
    · simp [hx, hmem]
    · simp [hx]

/-! ## Views -/

/-- The entries of some properties only. -/
def view (d : Declarations) (keep : String → Bool) : List Declaration := d.entries.filter (keep ·.1)

variable {keep : String → Bool}

section

variable (h : keep property = false)
include h

theorem filter_without (entries : List Declaration) :
    (without entries property).filter (keep ·.1) = entries.filter (keep ·.1) := by
  rw [without, filter_filter]
  refine filter_congr fun x _ => ?_
  by_cases hx : x.1 = property
  · simp [hx, h]
  · simp [hx]

theorem view_erase : (d.erase property).view keep = d.view keep :=
  filter_without h d.entries

theorem view_insertAt (i : Nat) : (d.insertAt i property value).view keep = d.view keep := by
  simp only [view, insertAt, placed]
  rw [filter_append, filter_cons_of_neg (by simp [h]), ← filter_append, take_append_drop]
  exact filter_without h d.entries

theorem view_set : (d.set property value).view keep = d.view keep := by
  unfold set
  split
  · have hname : (keep ·.1) ∘ (fun x : Declaration => if x.1 == property then (x.1, value) else x) = (keep ·.1) := by
      funext x
      simp only [Function.comp_apply]
      split <;> rfl
    simp only [view, replaced, filter_map, hname]
    refine (map_congr_left fun x hx => ?_).trans (map_id _)
    have hx : x.1 ≠ property := by
      rintro rfl
      simp [h] at hx
    simp [hx]
  · exact view_insertAt h _

end

theorem mem_view {x : Declaration} : x ∈ d.view keep ↔ x ∈ d.entries ∧ keep x.1 = true :=
  mem_filter

/-- A view shows the values of the properties that it keeps. -/
theorem get?_eq_of_view_eq (hview : d.view keep = e.view keep) (h : keep property = true) :
    d.get? property = e.get? property := by
  ext value
  rw [get?_eq_some_iff, get?_eq_some_iff]
  have hmem : (property, value) ∈ d.view keep ↔ (property, value) ∈ e.view keep := by rw [hview]
  simpa [mem_view, h] using hmem

theorem contains_eq_of_view_eq (hview : d.view keep = e.view keep) (h : keep property = true) :
    d.contains property = e.contains property := by
  rw [Bool.eq_iff_iff, contains_iff_get?, contains_iff_get?, get?_eq_of_view_eq hview h]

end Stylesheet.Declarations
