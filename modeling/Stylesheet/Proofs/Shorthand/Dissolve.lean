import Stylesheet.Shorthand.Box
import Stylesheet.Proofs.Declarations.Entries

/-!
# What dissolving leaves

The place at which longhands are put cuts the entries of a block in two. A longhand that is put in takes the last place
of the front part, wherever it stood before, and a longhand that is not put in changes nothing. Whether it is put in
depends on the entries that the block has for it (`overrides`), not on the longhands that were put in before it. So all
that overrule what is there stand in the place of the shorthand afterwards, in order (`entries_dissolveInto`).
-/

namespace Stylesheet.Shorthand

open Declarations List

variable {l longhands : List Declaration} {x : Declaration} {shorthand : String} {d : Declarations}
variable {front back : List Declaration} {s : Dissolving} {name : String} {value w : Value}

/-! ## One longhand -/

/-- A longhand of the shorthand between two lists of entries overrules what they have for it. -/
def overrides (front back : List Declaration) (x : Declaration) : Bool :=
  !x.2.text.isEmpty && (given front x.1).all (fun w => x.2.important || !w.important)
    && (given back x.1).all (fun w => x.2.important && !w.important)

/-- The place cuts the entries in two. -/
structure Dissolving.Cut (s : Dissolving) (front back : List Declaration) : Prop where
  entries : s.declarations.entries = front ++ back
  place : s.place = front.length

namespace Dissolving.Cut

variable {m : List Declaration}

/-- A longhand that the block does not have is put in. -/
theorem add_absent (h : s.Cut front back) (htext : value.text ≠ "") (hfront : name ∉ front.map Prod.fst)
    (hback : name ∉ back.map Prod.fst) : (s.add (name, value)).Cut (front ++ [(name, value)]) back := by
  have hposition : s.declarations.position? name = none := by
    apply position?_of_notMem
    rw [h.entries, map_append, mem_append]
    exact not_or.mpr ⟨hfront, hback⟩
  have hwithout : without s.declarations.entries name = front ++ back := by
    rw [h.entries, without_append, without_of_notMem hfront, without_of_notMem hback]
  simp only [Dissolving.add, String.isEmpty_iff, htext, if_false, hposition, h.place]
  refine ⟨?_, by simp⟩
  rw [entries_insertAt hwithout, append_assoc, singleton_append]

theorem notMem_ahead (h : s.Cut (l ++ (name, w) :: m) back) :
    name ∉ l.map Prod.fst ∧ name ∉ m.map Prod.fst ∧ name ∉ back.map Prod.fst := by
  have hentries : s.declarations.entries = l ++ (name, w) :: (m ++ back) := by
    rw [h.entries, append_assoc, cons_append]
  have hrest := notMem_around hentries
  rwa [map_append, mem_append, not_or] at hrest

theorem notMem_behind (h : s.Cut front (l ++ (name, w) :: m)) : name ∉ l.map Prod.fst ∧ name ∉ m.map Prod.fst := by
  have hentries : s.declarations.entries = (front ++ l) ++ (name, w) :: m := by
    rw [h.entries, append_assoc]
  have hrest := notMem_around hentries
  rw [map_append, mem_append, not_or] at hrest
  exact ⟨hrest.1.2, hrest.2⟩

/-- A longhand in front of the shorthand is overruled, unless it alone is important. -/
theorem add_ahead (h : s.Cut (l ++ (name, w) :: m) back) (htext : value.text ≠ "") :
    if value.important || !w.important then (s.add (name, value)).Cut (l ++ m ++ [(name, value)]) back
    else s.add (name, value) = s := by
  have hentries : s.declarations.entries = l ++ (name, w) :: (m ++ back) := by
    rw [h.entries, append_assoc, cons_append]
  have hwithout : without s.declarations.entries name = (l ++ m) ++ back := by
    rw [without_around hentries, append_assoc]
  have hplace : s.place = (l ++ m).length + 1 := by
    rw [h.place, length_append, length_append, length_cons, Nat.add_assoc]
  have hlt : ¬s.place ≤ l.length := by
    rw [hplace, length_append]
    omega
  have hput : Dissolving.Cut ⟨s.declarations.insertAt (s.place - 1) name value, s.place⟩ (l ++ m ++ [(name, value)])
      back := by
    constructor
    · rw [hplace, Nat.add_sub_cancel, entries_insertAt hwithout, append_assoc _ [_], singleton_append]
    · simp [hplace, Nat.add_assoc]
  simp only [Dissolving.add, String.isEmpty_iff, htext, if_false, position?_of_entries hentries, get?_of_entries hentries,
    Option.any_some, hlt]
  cases value.important <;> cases w.important <;> simp [-append_assoc, hput]

/-- A longhand behind the shorthand keeps its value, unless the shorthand alone is important. -/
theorem add_behind (h : s.Cut front (l ++ (name, w) :: m)) (htext : value.text ≠ "") :
    if value.important && !w.important then (s.add (name, value)).Cut (front ++ [(name, value)]) (l ++ m)
    else s.add (name, value) = s := by
  have hentries : s.declarations.entries = (front ++ l) ++ (name, w) :: m := by
    rw [h.entries, append_assoc]
  have hwithout : without s.declarations.entries name = front ++ (l ++ m) := by
    rw [without_around hentries, append_assoc]
  have hle : s.place ≤ (front ++ l).length := by
    rw [h.place, length_append]
    omega
  have hput : Dissolving.Cut ⟨s.declarations.insertAt s.place name value, s.place + 1⟩ (front ++ [(name, value)])
      (l ++ m) := by
    constructor
    · rw [h.place, entries_insertAt hwithout, append_assoc, singleton_append]
    · rw [h.place, length_append, length_singleton]
  simp only [Dissolving.add, String.isEmpty_iff, htext, if_false, position?_of_entries hentries, get?_of_entries hentries,
    Option.any_some, hle, if_true]
  cases value.important <;> cases w.important <;> simp [-append_assoc, hput]

/-- One longhand takes the last place of the front part if it overrules what is there. -/
theorem add (h : s.Cut front back) (x : Declaration) :
    if overrides front back x then (s.add x).Cut (without front x.1 ++ [x]) (without back x.1) else s.add x = s := by
  obtain ⟨name, value⟩ := x
  by_cases htext : value.text = ""
  · simp [overrides, Dissolving.add, htext]
  by_cases hfront : name ∈ front.map Prod.fst
  · obtain ⟨l, w, m, rfl⟩ := exists_middle hfront
    obtain ⟨hl, hm, hback⟩ := h.notMem_ahead
    have hoverrides : overrides (l ++ (name, w) :: m) back (name, value) = (value.important || !w.important) := by
      simp [overrides, htext, given_middle hl hm, given_of_notMem hback]
    rw [hoverrides, without_middle hl hm, without_of_notMem hback]
    exact h.add_ahead htext
  by_cases hback : name ∈ back.map Prod.fst
  · obtain ⟨l, w, m, rfl⟩ := exists_middle hback
    obtain ⟨hl, hm⟩ := h.notMem_behind
    have hoverrides : overrides front (l ++ (name, w) :: m) (name, value) = (value.important && !w.important) := by
      simp [overrides, htext, given_middle hl hm, given_of_notMem hfront]
    rw [hoverrides, without_middle hl hm, without_of_notMem hfront]
    exact h.add_behind htext
  · have hoverrides : overrides front back (name, value) = true := by
      simp [overrides, htext, given_of_notMem hfront, given_of_notMem hback]
    rw [hoverrides, without_of_notMem hfront, without_of_notMem hback]
    exact h.add_absent htext hfront hback

end Dissolving.Cut

/-! ## All longhands -/

theorem overrides_congr {front' back' : List Declaration} (hfront : given front' x.1 = given front x.1)
    (hback : given back' x.1 = given back x.1) : overrides front' back' x = overrides front back x := by
  unfold overrides
  rw [hfront, hback]

theorem given_without_of_ne {other : String} (h : other ≠ name) : given (without l name) other = given l other := by
  have hkeep : (name == other) = false := beq_eq_false_iff_ne.mpr (Ne.symm h)
  exact congrArg (map Prod.snd) (@filter_without name (· == other) hkeep l)

/-- The longhands that overrule what the block has for them. -/
def overruling (front back longhands : List Declaration) : List Declaration := longhands.filter (overrides front back)

theorem overruling_sublist : (overruling front back longhands).Sublist longhands :=
  filter_sublist

/-- The longhands that overrule what is there take the last places of the front part, in order. -/
theorem Dissolving.Cut.foldl_add (h : s.Cut front back) (hnodup : (longhands.map Prod.fst).Nodup) :
    (longhands.foldl Dissolving.add s).Cut
      (withoutAll front ((overruling front back longhands).map Prod.fst) ++ overruling front back longhands)
      (withoutAll back ((overruling front back longhands).map Prod.fst)) := by
  induction longhands generalizing s front back with
  | nil => simpa [overruling] using h
  | cons x longhands ih =>
    rw [map_cons, nodup_cons] at hnodup
    obtain ⟨hx, hrest⟩ := hnodup
    have hadd := h.add x
    rw [foldl_cons]
    split at hadd
    · next hoverrides =>
      -- The longhands still to come have other names, so that the new entry does not count for them.
      have hsame : overruling (without front x.1 ++ [x]) (without back x.1) longhands = overruling front back longhands := by
        refine filter_congr fun y hy => overrides_congr ?_ ?_
        · have hne : y.1 ≠ x.1 := fun heq => hx (heq ▸ mem_map_of_mem hy)
          have hlast : given [x] y.1 = [] := given_of_notMem (by simpa using hne)
          rw [given_append, hlast, append_nil, given_without_of_ne hne]
        · exact given_without_of_ne fun heq => hx (heq ▸ mem_map_of_mem hy)
      have hcons : overruling front back (x :: longhands) = x :: overruling front back longhands :=
        filter_cons_of_pos hoverrides
      have hapart : withoutAll [x] ((overruling front back longhands).map Prod.fst) = [x] := by
        refine withoutAll_of_forall fun y hy hmem => hx ?_
        rw [mem_singleton.mp hy] at hmem
        exact (overruling_sublist.map _).subset hmem
      have hall := ih hadd hrest
      rwa [hsame, withoutAll_append, withoutAll_without, withoutAll_without, hapart, append_assoc,
        singleton_append, ← map_cons, ← hcons] at hall
    · next hoverrides =>
      have hcons : overruling front back (x :: longhands) = overruling front back longhands :=
        filter_cons_of_neg hoverrides
      rw [hadd, hcons]
      exact ih h hrest

section

variable (h : d.entries = front ++ (shorthand, value) :: back)
include h

section

variable (hnodup : (longhands.map Prod.fst).Nodup)
include hnodup

/-- **The entries after dissolving.** The longhands that overrule what the block has for them stand in the place of the
shorthand, and nowhere else. -/
theorem entries_dissolveInto
    :
    (dissolveInto d shorthand longhands).entries
      = withoutAll front ((overruling front back longhands).map Prod.fst) ++ overruling front back longhands
        ++ withoutAll back ((overruling front back longhands).map Prod.fst) := by
  have hcut : Dissolving.Cut ⟨d.erase shorthand, front.length⟩ front back := ⟨without_around h, rfl⟩
  unfold dissolveInto
  rw [position?_of_entries h]
  exact (hcut.foldl_add hnodup).entries

theorem mem_dissolveInto
    (hx : x ∈ (dissolveInto d shorthand longhands).entries) : x ∈ front ++ back ∨ x ∈ longhands := by
  rw [entries_dissolveInto h hnodup, mem_append, mem_append] at hx
  rcases hx with (hfront | hmiddle) | hback
  · exact .inl (mem_append_left _ (mem_withoutAll.mp hfront).1)
  · exact .inr (overruling_sublist.subset hmiddle)
  · exact .inl (mem_append_right _ (mem_withoutAll.mp hback).1)

/-- A shorthand that is dissolved is gone. -/
theorem notMem_dissolveInto
    (hshorthand : shorthand ∉ longhands.map Prod.fst) :
    shorthand ∉ (dissolveInto d shorthand longhands).entries.map Prod.fst := by
  intro hmem
  obtain ⟨x, hx, hname⟩ := mem_map.mp hmem
  rcases mem_dissolveInto h hnodup hx with hothers | hlonghands
  · rw [← without_around h] at hothers
    exact not_mem_without _ _ (mem_map.mpr ⟨x, hothers, hname⟩)
  · exact hshorthand (mem_map.mpr ⟨x, hlonghands, hname⟩)

/-! ## What is left alone -/

end

end

variable {keep : String → Bool}

theorem Dissolving.view_add (h : keep x.1 = false) : (s.add x).declarations.view keep = s.declarations.view keep := by
  obtain ⟨name, value⟩ := x
  unfold Dissolving.add
  grind [view_insertAt]

theorem view_dissolveInto (hshorthand : keep shorthand = false) (hlonghands : ∀ x ∈ longhands, keep x.1 = false) :
    (dissolveInto d shorthand longhands).view keep = d.view keep := by
  unfold dissolveInto
  split
  · rfl
  · next place _ =>
    have hfold (s : Dissolving) :
        (longhands.foldl Dissolving.add s).declarations.view keep = s.declarations.view keep := by
      induction longhands generalizing s with
      | nil => rfl
      | cons x longhands ih =>
        rw [forall_mem_cons] at hlonghands
        rw [foldl_cons, ih hlonghands.2, Dissolving.view_add hlonghands.1]
    rw [hfold, view_erase hshorthand]

end Stylesheet.Shorthand
