import Stylesheet.Declarations
import Mathlib.Data.List.Basic

/-!
# Which value of a property wins

A block may give a property several values one after the other. The last one wins, unless an important one was
given: then the last important one does. Declarations that are read one by one, each behind all others, come out
this way (`get?_insert_winner`). Where each property has one value only, they come out as they were given
(`ofList_entries`).
-/

namespace Stylesheet.Declarations

open List

variable {d : Declarations} {property : String} {value : Value}

/-! ## Looking up what was inserted -/

/-- A declaration that is read in takes the place at the end. -/
theorem entries_insert (d : Declarations) (property : String) (value : Value) :
    (d.insert property value).entries
      = if d.accepts property value then without d.entries property ++ [(property, value)]
        else d.entries := by
  unfold insert
  split
  · have hlength : (without d.entries property).length ≤ d.entries.length := length_filter_le _ _
    simp only [insertAt, placed, size]
    rw [take_of_length_le hlength, drop_of_length_le hlength]
  · rfl

/-- What has been read in was there before, or is the new declaration. -/
theorem mem_or_eq_of_mem_insert {e : Declaration}
    (he : e ∈ (d.insert property value).entries) : e ∈ d.entries ∨ e = (property, value) := by
  rw [entries_insert] at he
  split at he
  · rcases mem_append.mp he with he | he
    · exact .inl (mem_of_mem_filter he)
    · exact .inr (mem_singleton.mp he)
  · exact .inl he

theorem lookup_without (entries : List Declaration) (property other : String) :
    (without entries property).lookup other
      = if other = property then none else entries.lookup other := by
  induction entries with
  | nil => simp [without]
  | cons e entries ih =>
    obtain ⟨name, value⟩ := e
    unfold without at ih ⊢
    by_cases hname : name = property
    · rw [filter_cons_of_neg (by simp [hname]), ih]
      split
      · rfl
      · next hother => rw [lookup_cons, hname, beq_eq_false_iff_ne.mpr hother]
    · rw [filter_cons_of_pos (by simp [hname]), lookup_cons, lookup_cons, ih]
      by_cases hother : other = name
      · rw [hother, beq_self_eq_true]
        exact (if_neg hname).symm
      · rw [beq_eq_false_iff_ne.mpr hother]

theorem get?_insert (d : Declarations) (property other : String) (value : Value) :
    (d.insert property value).get? other
      = if d.accepts property value ∧ other = property then some value else d.get? other := by
  unfold get?
  rw [entries_insert]
  split
  · next haccepts =>
    rw [lookup_append, lookup_without]
    by_cases hother : other = property
    · simp [hother, haccepts]
    · have hlast : [(property, value)].lookup other = none := by
        rw [lookup_cons, beq_eq_false_iff_ne.mpr hother, lookup_nil]
      simp [hother, hlast]
  · next haccepts => simp [haccepts]

/-! ## The winner -/

/-- The value that wins among values in the order in which they are given. -/
def winner (values : List Value) : Option Value :=
  (values.reverse.find? (·.important)).or values.getLast?

/-- The values that declarations give to a property, in order. -/
def given (entries : List Declaration) (property : String) : List Value :=
  (entries.filter (·.1 == property)).map (·.2)

/-- An important value wins if there is one. -/
theorem any_winner (values : List Value) : (winner values).any (·.important) = values.any (·.important) := by
  unfold winner
  cases hfind : values.reverse.find? (·.important) with
  | some value =>
    have hmem := mem_reverse.mp (mem_of_find?_eq_some hfind)
    have hvalue : value.important = true := find?_some hfind
    rw [Option.some_or, Option.any_some, hvalue]
    exact (any_eq_true.mpr ⟨value, hmem, hvalue⟩).symm
  | none =>
    have hnone : ∀ value ∈ values, value.important = false := by
      intro value hvalue
      simpa using find?_eq_none.mp hfind value (mem_reverse.mpr hvalue)
    rw [Option.none_or, any_eq_false.mpr (by simpa using hnone)]
    cases hlast : values.getLast? with
    | none => rfl
    | some value => exact hnone value (mem_of_getLast? hlast)

/-- One more value wins if it is important or no value before it is. -/
theorem winner_append_singleton (values : List Value) (value : Value) :
    winner (values ++ [value])
      = if value.important || !values.any (·.important) then some value else winner values := by
  unfold winner
  rw [reverse_append, reverse_singleton, singleton_append, getLast?_concat]
  cases himportant : value.important with
  | true => simp [himportant]
  | false =>
    rw [find?_cons_of_neg (by simp [himportant])]
    cases hany : values.any (·.important) with
    | true =>
      obtain ⟨x, hx, hximportant⟩ := any_eq_true.mp hany
      have hsome : (values.reverse.find? (·.important)).isSome :=
        find?_isSome.mpr ⟨x, mem_reverse.mpr hx, hximportant⟩
      obtain ⟨y, hy⟩ := Option.isSome_iff_exists.mp hsome
      simp [hy]
    | false =>
      have hnone : values.reverse.find? (·.important) = none := by
        rw [find?_eq_none]
        intro x hx
        exact any_eq_false.mp hany x (mem_reverse.mp hx)
      simp [hnone]

/-- **One more declaration.** If the declarations of a block are the winners among those given so far, they are so
when one more is read. -/
theorem get?_insert_winner {entries : List Declaration}
    (h : ∀ property, d.get? property = winner (given entries property)) (htext : value.text ≠ "") (other : String) :
    (d.insert property value).get? other = winner (given (entries ++ [(property, value)]) other) := by
  have haccepts : d.accepts property value
      = (value.important || !(given entries property).any (·.important)) := by
    unfold accepts
    rw [h property, any_winner]
    simp [htext]
  rw [get?_insert, haccepts]
  by_cases hother : other = property
  · subst hother
    have hgiven : given (entries ++ [(other, value)]) other = given entries other ++ [value] := by
      simp [given]
    rw [hgiven, winner_append_singleton, h other]
    simp
  · have hgiven : given (entries ++ [(property, value)]) other = given entries other := by
      have : (property == other) = false := beq_eq_false_iff_ne.mpr (Ne.symm hother)
      simp [given, this]
    rw [hgiven, h other, if_neg fun hcond => hother hcond.2]

/-! ## One value each -/

/-- A property that has no value yet goes to the end. -/
theorem entries_insert_of_notMem (hproperty : property ∉ d.entries.map Prod.fst) (htext : value.text ≠ "") :
    (d.insert property value).entries = d.entries ++ [(property, value)] := by
  have hget : d.get? property = none := by
    rw [get?, lookup_eq_none_iff]
    intro e he
    rw [bne_iff_ne]
    rintro rfl
    exact hproperty (mem_map_of_mem he)
  have haccepts : d.accepts property value = true := by
    simp [accepts, htext, hget]
  have hwithout : without d.entries property = d.entries := by
    rw [without, filter_eq_self]
    intro e he
    rw [bne_iff_ne]
    rintro rfl
    exact hproperty (mem_map_of_mem he)
  rw [entries_insert, if_pos haccepts, hwithout]

theorem entries_insertAll {entries : List Declaration}
    (hnodup : ((d.entries ++ entries).map Prod.fst).Nodup) (htext : ∀ e ∈ entries, e.2.text ≠ "") :
    (d.insertAll entries).entries = d.entries ++ entries := by
  induction entries generalizing d with
  | nil => simp [insertAll]
  | cons e entries ih =>
    have hnew : e.1 ∉ d.entries.map Prod.fst := by
      rw [map_append, map_cons] at hnodup
      exact fun hmem => (nodup_append.mp hnodup).2.2 _ hmem _ mem_cons_self rfl
    have hinsert := entries_insert_of_notMem hnew (htext e mem_cons_self)
    have hrest := ih (d := d.insert e.1 e.2) (by rw [hinsert]; simpa using hnodup)
      fun x hx => htext x (mem_cons_of_mem _ hx)
    rw [hinsert, append_assoc, singleton_append] at hrest
    exact hrest

/-- **Declarations read from their own entries** are the same. -/
theorem ofList_entries (htext : ∀ e ∈ d.entries, e.2.text ≠ "") : ofList d.entries = d := by
  have hentries : (ofList d.entries).entries = d.entries := entries_insertAll (d := empty) d.distinct htext
  generalize ofList d.entries = e at hentries
  cases d
  cases e
  congr

end Stylesheet.Declarations
