import Stylesheet.Proofs.Text.Cursor
import Stylesheet.Proofs.Text.Letters
import Stylesheet.Proofs.Text.Trim
import Stylesheet.Text.Lowercase
import Mathlib.Data.List.Induction

/-!
# Texts that escape nothing behind them

A text is firm if it ends with an even number of backslashes, so that whatever is put behind it is not escaped. Texts
with another character at the end are firm, and so are texts put together from firm ones. Capital letters can be made
small without a change to this, but space at the end matters: without it a text may end with a backslash that stood in
front of the space. A text is solid if it is firm and does not end with space.
-/

namespace Stylesheet.Text

open List
open String (ofList toList_append toList_ofList toList_push)

variable {s : String} {c : Char}

/-- The text ends with an even number of backslashes. -/
def IsFirm (s : String) : Prop := oddBackslashes s.toList.reverse = false

instance : DecidablePred IsFirm := fun s => inferInstanceAs (Decidable (oddBackslashes s.toList.reverse = false))

/-- The text is firm and ends with something other than space. -/
structure IsSolid (s : String) : Prop where
  firm : IsFirm s
  last : ∃ c ∈ s.toList.getLast?, isSpace c = false

/-! ## Ends of texts -/

/-- In front of an even number of backslashes, or none, all that counts is what comes nearer. -/
theorem oddBackslashes_append {before : List Char} (h : oddBackslashes before = false) (near : List Char) :
    oddBackslashes (near ++ before) = oddBackslashes near := by
  induction near with
  | nil => exact h
  | cons c near ih => rw [cons_append, oddBackslashes_cons, oddBackslashes_cons, ih]

theorem isFirm_empty : IsFirm "" := by decide

theorem isFirm_append (hs : IsFirm s) (t : String) : IsFirm (s ++ t) ↔ IsFirm t := by
  unfold IsFirm
  rw [toList_append, reverse_append, oddBackslashes_append hs]

theorem isFirm_of_getLast? (h : s.toList.getLast? = some c) (hc : c ≠ '\\') : IsFirm s := by
  obtain ⟨front, hfront⟩ := getLast?_eq_some_iff.mp h
  rw [IsFirm, hfront, reverse_append, reverse_singleton, singleton_append, oddBackslashes_cons,
    beq_eq_false_iff_ne.mpr hc, Bool.false_and]

theorem isFirm_of_notMem (h : '\\' ∉ s.toList) : IsFirm s := by
  cases hlast : s.toList.getLast? with
  | none =>
    rw [IsFirm, getLast?_eq_none_iff.mp hlast]
    rfl
  | some c =>
    refine isFirm_of_getLast? hlast ?_
    rintro rfl
    exact h (mem_of_getLast? hlast)

theorem IsSolid.of_getLast? (h : s.toList.getLast? = some c) (hc : c ≠ '\\') (hspace : isSpace c = false) : IsSolid s :=
  ⟨isFirm_of_getLast? h hc, c, h, hspace⟩

theorem isSolid_push (s : String) (hc : c ≠ '\\') (hspace : isSpace c = false) : IsSolid (s.push c) := by
  refine .of_getLast? (c := c) ?_ hc hspace
  rw [toList_push, getLast?_concat]

/-- A second backslash undoes the first. -/
theorem isSolid_push_backslash (h : ¬ IsFirm s) : IsSolid (s.push '\\') := by
  refine ⟨?_, '\\', ?_, by decide⟩
  · rw [IsFirm, toList_push, reverse_append, reverse_singleton, singleton_append, oddBackslashes_cons]
    simpa [IsFirm] using h
  · rw [toList_push, getLast?_concat]
    rfl

theorem not_isFirm_push_backslash (h : IsFirm s) : ¬ IsFirm (s.push '\\') := by
  rw [IsFirm, toList_push, reverse_append, reverse_singleton, singleton_append, oddBackslashes_cons]
  simpa [IsFirm] using h

/-- A solid text behind a firm one. -/
theorem IsSolid.append {t : String} (hs : IsFirm s) (ht : IsSolid t) : IsSolid (s ++ t) := by
  refine ⟨(isFirm_append hs t).mpr ht.firm, ?_⟩
  obtain ⟨c, hc, hspace⟩ := ht.last
  refine ⟨c, ?_, hspace⟩
  have hne : t.toList ≠ [] := by
    intro hnil
    simp [hnil] at hc
  rw [toList_append, getLast?_append_of_ne_nil _ hne]
  exact hc

/-! ## Space at the ends -/

theorem isFirm_of_isSpace {s : List Char} (h : ∀ c ∈ s, isSpace c = true) : IsFirm (ofList s) := by
  apply isFirm_of_notMem
  rw [toList_ofList]
  exact fun hmem => absurd (h _ hmem) (by decide)

/-- A text that is firm without space at its ends is firm. -/
theorem isFirm_of_trim (h : IsFirm (trim s)) : IsFirm s := by
  obtain ⟨left, right, hsplit, hleft, hright⟩ := exists_trimBoth isSpace s.toList
  have hs : s = ofList left ++ trim s ++ ofList right := by
    apply String.toList_injective
    simp only [toList_append, trim, toList_ofList]
    exact hsplit
  have hfirm := (isFirm_append (isFirm_of_isSpace hleft) (trim s)).mpr h
  rw [hs]
  exact (isFirm_append hfirm _).mpr (isFirm_of_isSpace hright)

/-- A solid text is firm without space at its ends, too. -/
theorem IsSolid.trim (h : IsSolid s) : Text.trim s ≠ "" ∧ IsFirm (Text.trim s) := by
  obtain ⟨left, right, hsplit, hleft, hright⟩ := exists_trimBoth isSpace s.toList
  obtain ⟨c, hc, hspace⟩ := h.last
  have hnil : right = [] := by
    by_contra hne
    rw [hsplit, getLast?_append_of_ne_nil _ hne] at hc
    exact absurd (hright c (mem_of_getLast? hc)) (by simp [hspace])
  rw [hnil, append_nil] at hsplit
  have hs : s = ofList left ++ Text.trim s := by
    apply String.toList_injective
    simp only [toList_append, Text.trim, toList_ofList]
    exact hsplit
  constructor
  · intro hempty
    rw [hempty, String.append_empty] at hs
    rw [hs, toList_ofList] at hc
    exact absurd (hleft c (mem_of_getLast? hc)) (by simp [hspace])
  · rw [← isFirm_append (isFirm_of_isSpace hleft), ← hs]
    exact h.firm

/-- Space at the end of a text does not matter where it is dropped. -/
theorem isFirm_trim_iff (s : String) : IsFirm (Text.trim s) ↔ oddBackslashes (s.toList.reverse.dropWhile isSpace) = false := by
  have hreverse : (Text.trim s).toList.reverse = (s.toList.dropWhile isSpace).reverse.dropWhile isSpace := by
    rw [Text.trim, toList_ofList, trimBoth, reverse_reverse]
  have hspace : ∀ c ∈ (s.toList.takeWhile isSpace).reverse, isSpace c = true :=
    fun c hc => mem_takeWhile_imp (mem_reverse.mp hc)
  have heven : oddBackslashes (s.toList.takeWhile isSpace).reverse = false := by
    have hfirm := isFirm_of_isSpace (s := s.toList.takeWhile isSpace) fun c hc => mem_takeWhile_imp hc
    rwa [IsFirm, toList_ofList] at hfirm
  rw [IsFirm, hreverse]
  conv_rhs => rw [← takeWhile_append_dropWhile (p := isSpace) (l := s.toList), reverse_append, dropWhile_append]
  split
  · next hempty =>
    rw [isEmpty_iff.mp hempty, dropWhile_eq_nil_iff.mpr hspace]
  · rw [oddBackslashes_append heven]

theorem isFirm_trim_push (hc : isSpace c = true) : IsFirm (Text.trim (s.push c)) ↔ IsFirm (Text.trim s) := by
  rw [isFirm_trim_iff, isFirm_trim_iff, toList_push, reverse_append, reverse_singleton,
    singleton_append, dropWhile_cons_of_pos hc]

theorem filter_trim (s : String) : (trim s).toList.filter (!isSpace ·) = s.toList.filter (!isSpace ·) := by
  rw [trim, toList_ofList, filter_trimBoth]

/-- What is left of a text without space at its ends is not a lone character if there is another one in the text. -/
theorem trim_ne_singleton {d : Char} (hd : d ∈ s.toList) (hspace : isSpace d = false) (hne : d ≠ c) :
    trim s ≠ String.singleton c := by
  intro heq
  have hmem : d ∈ (trim s).toList.filter (!isSpace ·) := by
    rw [filter_trim]
    exact mem_filter.mpr ⟨hd, by simp [hspace]⟩
  rw [heq, String.toList_singleton] at hmem
  exact hne (mem_singleton.mp (mem_of_mem_filter hmem))

/-- If a lone character is left of two texts, and the second is solid, then there is only space in the first. -/
theorem trim_eq_empty_of_append {t : String} (ht : IsSolid t) (h : trim (s ++ t) = String.singleton c) :
    trim s = "" := by
  obtain ⟨d, hd, hspace⟩ := ht.last
  have hsecond : 0 < (t.toList.filter (!isSpace ·)).length :=
    length_pos_of_mem (mem_filter.mpr ⟨mem_of_getLast? hd, by simp [hspace]⟩)
  have hboth : ((s ++ t).toList.filter (!isSpace ·)).length ≤ 1 := by
    calc ((s ++ t).toList.filter (!isSpace ·)).length
        = ((trim (s ++ t)).toList.filter (!isSpace ·)).length := by rw [filter_trim]
      _ ≤ (trim (s ++ t)).toList.length := length_filter_le _ _
      _ = 1 := by rw [h, String.toList_singleton, length_singleton]
  rw [toList_append, filter_append, length_append] at hboth
  have hfirst : s.toList.filter (!isSpace ·) = [] := eq_nil_of_length_eq_zero (by omega)
  rw [trim, trimBoth_eq_nil hfirst, String.ofList_nil]

/-! ## Small letters -/

theorem isFirm_lower (s : String) : IsFirm (lower s) ↔ IsFirm s := by
  have hmap (l : List Char) : oddBackslashes (l.map Char.toLower) = oddBackslashes l := by
    induction l with
    | nil => rfl
    | cons c l ih =>
      have hc : (c.toLower == '\\') = (c == '\\') := by
        rw [Bool.eq_iff_iff, beq_iff_eq, beq_iff_eq]
        exact toLower_eq_iff rfl
      rw [map_cons, oddBackslashes_cons, oddBackslashes_cons, ih, hc]
  rw [IsFirm, lower, toList_ofList, ← map_reverse, hmap, IsFirm]

namespace Lowercase

/-- No small letter of another script is a backslash. -/
theorem lt_codeOf {code : Nat} (h : 0x80 ≤ code) : 92 < codeOf code := by
  have hruns : runs.all (fun r => decide (92 < (r.first : Int) + r.shift)) = true := by decide
  unfold codeOf
  split
  · next r hfind =>
    have hrun := all_eq_true.mp hruns r (mem_of_find?_eq_some hfind)
    have hfirst := find?_some hfind
    simp only [Bool.and_eq_true, decide_eq_true_eq] at hrun hfirst
    omega
  · omega

theorem ofNat_ne_backslash {code : Nat} (h : 92 < code) : Char.ofNat code ≠ '\\' := by
  intro heq
  by_cases hvalid : code.isValidChar
  · have hcode : (Char.ofNat code).toNat = code := by
      rw [Char.ofNat, dif_pos hvalid]
      rfl
    rw [heq] at hcode
    have hbackslash : 92 = code := hcode
    omega
  · rw [Char.ofNat, dif_neg hvalid] at heq
    exact absurd heq (by decide)

/-- Only a backslash becomes one. -/
theorem getLast?_ofChar (before : List Char) (hc : c ≠ '\\') (after : List Char) :
    ∃ d, (ofChar before c after).getLast? = some d ∧ d ≠ '\\' := by
  unfold ofChar
  split
  · exact ⟨c.toLower, rfl, fun heq => hc ((toLower_eq_iff rfl).mp heq)⟩
  · next hcode =>
    split
    · split
      · exact ⟨'ς', rfl, by decide⟩
      · exact ⟨'σ', rfl, by decide⟩
    · split
      · exact ⟨'\u0307', rfl, by decide⟩
      · exact ⟨_, rfl, ofNat_ne_backslash (lt_codeOf (Nat.le_of_not_lt hcode))⟩

/-- The characters of the first part of a text end with as many backslashes as it does. -/
theorem exists_ofChars_append (before front after : List Char) :
    ∃ small, ofChars before (front ++ after) = small ++ ofChars (front.reverse ++ before) after ∧
      oddBackslashes small.reverse = oddBackslashes front.reverse := by
  induction front using reverseRecOn generalizing after with
  | nil => exact ⟨[], rfl, rfl⟩
  | append_singleton front c ih =>
    obtain ⟨small, hsplit, hodd⟩ := ih (c :: after)
    refine ⟨small ++ ofChar (front.reverse ++ before) c after, ?_, ?_⟩
    · rw [append_assoc, singleton_append, hsplit, ofChars, append_assoc, reverse_append,
        reverse_singleton, singleton_append, cons_append]
    · rw [reverse_append, reverse_append, reverse_singleton, singleton_append]
      by_cases hc : c = '\\'
      · subst hc
        have hsame : ofChar (front.reverse ++ before) '\\' after = ['\\'] := rfl
        rw [hsame, reverse_singleton, singleton_append, oddBackslashes_cons, oddBackslashes_cons, hodd]
      · obtain ⟨d, hlast, hd⟩ := getLast?_ofChar (front.reverse ++ before) hc after
        obtain ⟨init, hinit⟩ := getLast?_eq_some_iff.mp hlast
        rw [hinit, reverse_append, reverse_singleton, singleton_append, cons_append, oddBackslashes_cons,
          oddBackslashes_cons, beq_eq_false_iff_ne.mpr hd, beq_eq_false_iff_ne.mpr hc, Bool.false_and, Bool.false_and]

end Lowercase

theorem isFirm_lowercase (s : String) : IsFirm (lowercase s) ↔ IsFirm s := by
  obtain ⟨small, hsmall, hodd⟩ := Lowercase.exists_ofChars_append [] s.toList []
  rw [append_nil, Lowercase.ofChars, append_nil] at hsmall
  rw [IsFirm, lowercase, toList_ofList, hsmall, hodd, IsFirm]

end Stylesheet.Text
