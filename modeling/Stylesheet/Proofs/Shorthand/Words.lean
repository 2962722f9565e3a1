import Stylesheet.Shorthand.Box
import Stylesheet.Proofs.Text.Join
import Stylesheet.Proofs.Value.Measure

/-!
# Words of a value

A keyword for every property and a variable cannot be told apart into parts. A text of several words is no such keyword, and
one without parentheses has no variable in it. Words that are written like a measure can be put together in any way
(`PlainWord`).
-/

namespace Stylesheet.Shorthand

open Text List

variable {text : String} {ts : List String}

/-! ## Small letters -/

/-- Digits and signs stand in front of the letters. -/
theorem toLower_of_lt {c : Char} (h : c.val < 65) : c.toLower = c := by
  refine dif_neg fun hupper => ?_
  have h65 : 65 ≤ c.val := hupper.1
  exact absurd h (by simpa using h65)

theorem val_lt_of_isDigit {c : Char} (h : c.isDigit = true) : c.val < 65 := by
  simp only [Char.isDigit, Bool.and_eq_true, decide_eq_true_eq] at h
  have h57 : c.val ≤ 57 := h.2
  exact UInt32.lt_of_le_of_lt h57 (by decide)

theorem head?_lower {w : String} {c : Char} (hc : w.toList.head? = some c) (h : c.val < 65) :
    (lower w).toList.head? = some c := by
  rw [lower, String.toList_ofList, head?_map, hc, Option.map_some, toLower_of_lt h]

/-! ## Keywords for every property -/

/-- A keyword for every property is one word. -/
theorem isWideKeyword_of_mem (h : ' ' ∈ text.toList) : isWideKeyword text = false := by
  have hall : ∀ s ∈ ["inherit", "initial", "unset", "revert", "revert-layer"], ' '.toLower ∉ s.toList := by decide
  rw [Bool.eq_false_iff]
  intro hwide
  refine hall _ (contains_iff_mem.mp hwide) ?_
  rw [lower, String.toList_ofList]
  exact mem_map_of_mem h

/-- A text without parentheses has no variable in it. -/
theorem isWhole_of_notMem (h : '(' ∉ text.toList) : isWhole text = isWideKeyword text := by
  have hvar : occursIn "var(" text = false := by
    rw [Bool.eq_false_iff]
    exact fun hoccurs => h ((occursIn_iff.mp hoccurs).subset (by decide))
  rw [isWhole, hvar, Bool.or_false]

/-! ## Plain words -/

theorem trimBlank_of_trimmed (h : Trimmed isBlank text.toList) : trimBlank text = text := by
  rw [trimBlank, h.trimBoth_eq, String.ofList_toList]

/-- A word that can stand in any list of words, or of texts with commas between them. -/
structure PlainWord (w : String) : Prop where
  word : words w = [w]
  closed : Closed w
  noComma : Whole ',' .outside w.toList
  trimmed : Trimmed isBlank w.toList
  noCall : '(' ∉ w.toList

theorem toNat_lt_of_isMeasureChar {c : Char} (h : Value.isMeasureChar c = true) : c.toNat < 128 := by
  simp only [Value.isMeasureChar, Char.isAlphanum, Bool.or_eq_true, contains_iff_mem] at h
  rcases h with (halpha | hdigit) | hsign
  · rw [isAlpha_iff] at halpha
    have hval : c.val ≤ 122 := by grind
    exact Nat.lt_of_le_of_lt hval (by decide)
  · have hval : c.val ≤ 57 := by
      simp only [Char.isDigit, Bool.and_eq_true, decide_eq_true_eq] at hdigit
      exact hdigit.2
    exact Nat.lt_of_le_of_lt hval (by decide)
  · simp only [mem_cons, not_mem_nil, or_false] at hsign
    rcases hsign with rfl | rfl | rfl | rfl | rfl <;> decide

/-- A character of a measure is neither white space nor a delimiter. -/
theorem inert_of_isMeasureChar {c : Char} (h : Value.isMeasureChar c = true) :
    IsInert c ∧ isSpace c = false ∧ isBlank c = false ∧ c ≠ ',' ∧ c ≠ '(' := by
  have hall : ∀ n < 128, Value.isMeasureChar (Char.ofNat n) = true →
      (nests (Char.ofNat n) = false ∧ Char.ofNat n ≠ '\\') ∧ isSpace (Char.ofNat n) = false ∧
        isBlank (Char.ofNat n) = false ∧ Char.ofNat n ≠ ',' ∧ Char.ofNat n ≠ '(' := by decide +kernel
  have hc := hall c.toNat (toNat_lt_of_isMeasureChar h)
  rw [Char.ofNat_toNat] at hc
  exact hc h

theorem PlainWord.of_isMeasure {w : String} (h : Value.IsMeasure w) : PlainWord w := by
  have hchar := fun c hc => inert_of_isMeasureChar (h.chars c hc)
  have hblank : Whole ' ' .outside w.toList ∧ Closed w := by
    refine whole_of_isInert fun c hc => ⟨(hchar c hc).1, ?_⟩
    rintro rfl
    exact absurd (hchar _ hc).2.1 (by decide)
  have hcomma : Whole ',' .outside w.toList ∧ Closed w :=
    whole_of_isInert fun c hc => ⟨(hchar c hc).1, (hchar c hc).2.2.2.1⟩
  refine ⟨words_eq_singleton_iff.mpr ⟨h.ne_empty, ?_, hblank.1⟩, hblank.2, hcomma.1, ⟨?_, ?_⟩, ?_⟩
  · rw [blanked_eq_self_iff]
    exact fun c hc hspace => absurd (hspace.symm.trans (hchar c hc).2.1) (by decide)
  · exact fun c hc => (hchar c (mem_of_mem_head? hc)).2.2.1
  · exact fun c hc => (hchar c (mem_of_getLast? hc)).2.2.1
  · exact fun hmem => (hchar _ hmem).2.2.2.2 rfl

theorem PlainWord.ne_nil {w : String} (h : PlainWord w) : w.toList ≠ [] :=
  fun hnil => (words_eq_singleton_iff.mp h.word).1 (String.toList_eq_nil_iff.mp hnil)

end Stylesheet.Shorthand
