import Stylesheet.Text.Class
import Mathlib.Data.List.Basic
import Mathlib.Data.List.TakeWhile

/-!
# Trimming

Trimming takes the longest runs of a class off both ends of a text, and nothing else. What is left has no character of
the class at its ends (`Trimmed`), and so has what such texts are joined to.
-/

namespace Stylesheet.Text

open List

variable {p : Char → Bool} {s : List Char}

/-- What is left behind the longest run of a class. -/
theorem drop_length_takeWhile (p : Char → Bool) (s : List Char) : s.drop (s.takeWhile p).length = s.dropWhile p := by
  have hsplit := takeWhile_append_dropWhile (p := p) (l := s)
  calc s.drop (s.takeWhile p).length
      = (s.takeWhile p ++ s.dropWhile p).drop (s.takeWhile p).length := by rw [hsplit]
    _ = s.dropWhile p := drop_left

/-- A text is what trimming leaves of it, between characters of the class. -/
theorem exists_trimBoth (p : Char → Bool) (s : List Char) :
    ∃ left right, s = left ++ trimBoth p s ++ right ∧ (∀ c ∈ left, p c = true) ∧
      ∀ c ∈ right, p c = true := by
  refine ⟨s.takeWhile p, ((s.dropWhile p).reverse.takeWhile p).reverse, ?_, ?_, ?_⟩
  · have hinner : trimBoth p s ++ ((s.dropWhile p).reverse.takeWhile p).reverse = s.dropWhile p := by
      rw [trimBoth, ← reverse_append, takeWhile_append_dropWhile, reverse_reverse]
    rw [append_assoc, hinner, takeWhile_append_dropWhile]
  · exact fun c hc => mem_takeWhile_imp hc
  · exact fun c hc => mem_takeWhile_imp (mem_reverse.mp hc)

/-- A text with other characters at both ends stays as it is. -/
theorem trimBoth_eq_self (hhead : ∀ c ∈ s.head?, p c = false)
    (hlast : ∀ c ∈ s.getLast?, p c = false) : trimBoth p s = s := by
  have hdrop : s.dropWhile p = s := by
    cases s with
    | nil => rfl
    | cons c s => rw [dropWhile_cons_of_neg (by simp [hhead c rfl])]
  have hdrop' : s.reverse.dropWhile p = s.reverse := by
    cases hs : s.reverse with
    | nil => rfl
    | cons c t =>
      have hc : s.getLast? = some c := by
        rw [getLast?_eq_head?_reverse, hs]
        rfl
      rw [dropWhile_cons_of_neg (by simp [hlast c hc])]
  rw [trimBoth, hdrop, hdrop', reverse_reverse]

/-- No character of the class stands at either end. -/
structure Trimmed (p : Char → Bool) (s : List Char) : Prop where
  head : ∀ c ∈ s.head?, p c = false
  last : ∀ c ∈ s.getLast?, p c = false

theorem Trimmed.trimBoth_eq (h : Trimmed p s) : trimBoth p s = s :=
  trimBoth_eq_self h.head h.last

theorem head?_dropWhile_eq_false : ∀ c ∈ (s.dropWhile p).head?, p c = false := by
  intro c hc
  have hhead := head?_dropWhile_not p s
  rwa [hc] at hhead

theorem trimmed_trimBoth (p : Char → Bool) (s : List Char) : Trimmed p (trimBoth p s) := by
  constructor
  · intro c hc
    rw [trimBoth, head?_reverse] at hc
    -- what is dropped in the second place leaves the first character where it is, if there is one left
    obtain ⟨left, hleft⟩ := dropWhile_suffix p (l := (s.dropWhile p).reverse)
    have hne : (s.dropWhile p).reverse.dropWhile p ≠ [] := by
      intro hnil
      simp [hnil] at hc
    rw [← getLast?_append_of_ne_nil left hne, hleft, getLast?_reverse] at hc
    exact head?_dropWhile_eq_false c hc
  · intro c hc
    rw [trimBoth, getLast?_reverse] at hc
    exact head?_dropWhile_eq_false c hc

theorem Trimmed.append {t : List Char} {c : Char} (hs : Trimmed p s) (hne : s ≠ [])
    (ht : Trimmed p t) (hnet : t ≠ []) : Trimmed p (s ++ c :: t) := by
  constructor
  · rw [head?_append_of_ne_nil _ hne]
    exact hs.head
  · rw [getLast?_append_of_ne_nil _ (cons_ne_nil c t), ← singleton_append, getLast?_append_of_ne_nil _ hnet]
    exact ht.last

/-- Trimming loses nothing outside of the class. -/
theorem filter_trimBoth (p : Char → Bool) (s : List Char) : (trimBoth p s).filter (!p ·) = s.filter (!p ·) := by
  obtain ⟨left, right, hsplit, hleft, hright⟩ := exists_trimBoth p s
  have hnone {t : List Char} (ht : ∀ c ∈ t, p c = true) : t.filter (!p ·) = [] :=
    filter_eq_nil_iff.mpr fun c hc => by simp [ht c hc]
  conv_rhs => rw [hsplit, filter_append, filter_append, hnone hleft, hnone hright, nil_append, append_nil]

/-- A text of nothing but the class is trimmed away. -/
theorem trimBoth_eq_nil (h : s.filter (!p ·) = []) : trimBoth p s = [] := by
  cases hs : trimBoth p s with
  | nil => rfl
  | cons c t =>
    have hc : p c = false := (trimmed_trimBoth p s).head c (by rw [hs]; rfl)
    rw [← filter_trimBoth, hs, filter_cons_of_pos (by simp [hc])] at h
    cases h

/-- Parts without the class at their ends are joined to a text without it at its ends. -/
theorem trimmed_intercalate {sep : Char} {parts : List (List Char)}
    (h : ∀ part ∈ parts, part ≠ [] ∧ Trimmed p part) : Trimmed p ([sep].intercalate parts) := by
  have hjoined : ∀ first parts, (∀ part ∈ first :: parts, part ≠ [] ∧ Trimmed p part) →
      [sep].intercalate (first :: parts) ≠ [] ∧ Trimmed p ([sep].intercalate (first :: parts)) := by
    intro first parts hparts
    induction parts generalizing first with
    | nil => simpa using hparts
    | cons next parts ih =>
      obtain ⟨⟨hne, hfirst⟩, hrest⟩ := forall_mem_cons.mp hparts
      obtain ⟨hnejoined, hjoined⟩ := ih next hrest
      rw [intercalate_cons_cons, append_assoc, singleton_append]
      exact ⟨append_ne_nil_of_left_ne_nil hne _, hfirst.append hne hjoined hnejoined⟩
  cases parts with
  | nil => exact ⟨nofun, nofun⟩
  | cons first parts => exact (hjoined first parts h).2

end Stylesheet.Text
