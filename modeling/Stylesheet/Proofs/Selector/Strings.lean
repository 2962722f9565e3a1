import Stylesheet.Proofs.Selector.Valid
import Stylesheet.Proofs.Text.Strings

/-!
# Strings in selectors

The commas of a selector are looked for outside of strings, its combinators everywhere. So a string is in one
alternative as a whole, whatever it says (`exists_split_quoted`), but combinators in it count as if they stood outside.
Whether the selector is well formed depends on what the string says in one way only: two combinators in a row make it
malformed (`isValid_quoted_iff`). One string can therefore stand for another in a selector that is well formed otherwise
just if both have that flaw or neither has (`isValid_withString_eq_iff`).
-/

open List

namespace Stylesheet.Text

/-- A text with a string between two others. -/
def withString (front content back : String) : String := front ++ "\"" ++ content ++ "\"" ++ back

theorem toList_withString (front content back : String) :
    (withString front content back).toList = front.toList ++ ('"' :: (content.toList ++ ['"']) ++ back.toList) := by
  have hquote : "\"".toList = ['"'] := rfl
  simp [withString, hquote]

/-- **A string is part of one alternative,** and what else there is does not depend on what the string says. -/
theorem exists_split_quoted {front : String} (hfront : Quoteless front) (back : String) :
    ∃ before left right behind, ∀ content, Quoteless content →
      split ',' (withString front content back)
        = before ++ String.ofList (left ++ '"' :: (content.toList ++ '"' :: right)) :: behind := by
  have hlevel : (Nesting.outside.after front.toList).Level := Nesting.Level.after ⟨rfl, rfl⟩ hfront
  obtain ⟨before, left, -, hsplit⟩ := exists_splitFrom_append ',' .outside front.toList
  obtain ⟨right, behind, hback⟩ := exists_cons_of_ne_nil
    (splitFrom_ne_nil ',' (Nesting.outside.after front.toList) back.toList)
  refine ⟨before.map String.ofList, left, right, behind.map String.ofList, fun content hcontent => ?_⟩
  obtain ⟨hwhole, hafter⟩ := whole_string ',' hlevel fun c hc => ⟨(hcontent c hc).1, (hcontent c hc).2.2⟩
  have hchars : splitChars ',' (withString front content back).toList
      = splitFrom ',' .outside (withString front content back).toList := by
    have hmem : '"' ∈ (withString front content back).toList := by simp [toList_withString]
    rw [splitChars, if_neg]
    rintro hnone
    rcases Bool.or_eq_true_iff.mp hnone with hnil | hcomma
    · rw [isEmpty_iff.mp hnil] at hmem
      cases hmem
    · rw [beq_iff_eq.mp hcomma] at hmem
      simp at hmem
  rw [split, hchars, toList_withString, hsplit, splitFrom_append hwhole, hafter, hback]
  simp

end Stylesheet.Text

namespace Stylesheet.Selector

open Text

variable {s : List Char}

/-! ## White space does not matter -/

theorem visible_visible (s : List Char) : visible (visible s) = visible s := by simp [visible, filter_filter]

theorem doubled_visible : Doubled (visible s) ↔ Doubled s := by rw [doubled_iff, doubled_iff, visible_visible]

theorem getLast?_visible (h : ∀ c ∈ s.getLast?, isBlank c = false) : (visible s).getLast? = s.getLast? := by
  have hreverse : (visible s).reverse = visible s.reverse := (filter_reverse ..).symm
  rw [getLast?_eq_head?_reverse, hreverse, head?_visible, head?_reverse]
  rwa [head?_reverse]

/-- An alternative is complete if it is so without its white space. -/
theorem complete_trimBoth : Complete (trimBoth isBlank s) ↔ Complete (visible s) := by
  have htrimmed := trimmed_trimBoth isBlank s
  have hvisible : visible s = visible (trimBoth isBlank s) := (filter_trimBoth isBlank s).symm
  rw [hvisible]
  generalize trimBoth isBlank s = t at htrimmed
  have hhead := head?_visible htrimmed.head
  have hnil : t ≠ [] ↔ visible t ≠ [] := by
    rw [ne_eq, ne_eq, ← head?_eq_none_iff, ← head?_eq_none_iff, hhead]
  constructor
  · intro h
    exact ⟨hnil.mp h.ne_nil, hhead ▸ h.head, getLast?_visible htrimmed.last ▸ h.last, mt doubled_visible.mp h.apart⟩
  · intro h
    exact ⟨hnil.mpr h.ne_nil, hhead ▸ h.head, getLast?_visible htrimmed.last ▸ h.last, mt doubled_visible.mpr h.apart⟩

/-! ## What a string may say -/

theorem not_combines_quote : ¬ Combines '"' := by unfold Combines; decide

/-- A string adds nothing to its alternative but combinators in a row. -/
theorem complete_quoted {left right : List Char} :
    Complete (left ++ '"' :: (s ++ '"' :: right)) ↔ Complete (left ++ '"' :: '"' :: right) ∧ ¬ Doubled s := by
  have hhead : (left ++ '"' :: (s ++ '"' :: right)).head? = (left ++ '"' :: '"' :: right).head? := by
    cases left <;> rfl
  have hlast : (left ++ '"' :: (s ++ '"' :: right)).getLast? = (left ++ '"' :: '"' :: right).getLast? := by
    simp [getLast?_append, getLast?_cons]
  have hrow (t : List Char) :
      Doubled (left ++ '"' :: (t ++ '"' :: right)) ↔ Doubled left ∨ Doubled t ∨ Doubled right := by
    rw [doubled_append_cons not_combines_quote, doubled_append_cons not_combines_quote]
  have hempty : Doubled (left ++ '"' :: '"' :: right) ↔ Doubled left ∨ Doubled right :=
    (hrow []).trans (or_congr_right (or_iff_right not_doubled_nil))
  constructor
  · intro h
    have hapart := mt (hrow s).mpr h.apart
    refine ⟨⟨by simp, hhead ▸ h.head, hlast ▸ h.last, mt hempty.mp ?_⟩, ?_⟩
    · exact fun hdoubled => hapart (hdoubled.imp_right .inr)
    · exact fun hdoubled => hapart (.inr (.inl hdoubled))
  · rintro ⟨h, hs⟩
    have hapart := mt hempty.mpr h.apart
    refine ⟨by simp, hhead ▸ h.head, hlast ▸ h.last, mt (hrow s).mp ?_⟩
    rintro (hleft | hdoubled | hright)
    · exact hapart (.inl hleft)
    · exact hs hdoubled
    · exact hapart (.inr hright)

theorem isValidAlternative_quoted {left right : List Char} (content : String) :
    isValidAlternative (String.ofList (left ++ '"' :: (content.toList ++ '"' :: right))) = true ↔
      isValidAlternative (String.ofList (left ++ '"' :: '"' :: right)) = true ∧ ¬ Doubled content.toList := by
  have hquote (t : List Char) : visible ('"' :: t) = '"' :: visible t := visible_cons_of_not_isBlank (by decide) t
  rw [isValidAlternative_iff, isValidAlternative_iff, complete_trimBoth, complete_trimBoth, String.toList_ofList,
    String.toList_ofList, visible_append, visible_append, hquote, visible_append, hquote, hquote, hquote,
    complete_quoted, doubled_visible]

/-- **A string makes a selector malformed** if it has two combinators in a row. -/
theorem isValid_quoted_iff {front back content : String} (hfront : Quoteless front) (hcontent : Quoteless content) :
    isValid (withString front content back) = true ↔
      isValid (withString front "" back) = true ∧ ¬ Doubled content.toList := by
  obtain ⟨before, left, right, behind, hsplit⟩ := exists_split_quoted hfront back
  have hempty := hsplit "" (by decide)
  rw [String.toList_empty, nil_append] at hempty
  have hisEmpty (part : String) : (before ++ part :: behind).isEmpty = false := by simp
  simp only [isValid, hsplit content hcontent, hempty, hisEmpty, all_append, all_cons, Bool.not_false,
    Bool.true_and, Bool.and_eq_true, isValidAlternative_quoted content]
  tauto

/-- **One string is as good as another** in a selector that is well formed with an empty string in their place if both
have two combinators in a row or neither has. In a selector that is malformed anyway it always is. -/
theorem isValid_withString_eq_iff (front back s t : String) (hfront : Quoteless front) (hs : Quoteless s)
    (ht : Quoteless t) :
    isValid (withString front s back) = isValid (withString front t back) ↔
      (isValid (withString front "" back) = true → (Doubled s.toList ↔ Doubled t.toList)) := by
  rw [Bool.eq_iff_iff, isValid_quoted_iff hfront hs, isValid_quoted_iff hfront ht, and_congr_right_iff, not_iff_not]

/-- Commas and single combinators in a string are harmless. -/
theorem isValid_withString_child_eq_comma :
    isValid "[title=\"a > b\"]" = isValid "[title=\"a, b\"]" :=
  (isValid_withString_eq_iff "[title=" "]" "a > b" "a, b" (by decide) (by decide) (by decide)).mpr fun _ => by decide

/-- What a string says can make a selector malformed. -/
theorem isValid_withString_ne :
    Quoteless "[title=" ∧ Quoteless "]" ∧ Quoteless "C" ∧ Quoteless "C++" ∧
      isValid (withString "[title=" "C" "]") = true ∧ isValid (withString "[title=" "C++" "]") = false := by
  refine ⟨by decide, by decide, by decide, by decide, ?_, ?_⟩
  · decide +kernel
  · decide +kernel

end Stylesheet.Selector
