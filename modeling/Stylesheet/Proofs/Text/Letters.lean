import Stylesheet.Text.Class

/-!
# Small letters

Writing a text in small letters moves each capital 32 places on and leaves every other character where it is. So letters
stay letters, a character that is no letter stands for itself, and a text in small letters stays as it is.
-/

namespace Stylesheet.Text

variable {c d : Char}

theorem isAlpha_iff : c.isAlpha = true ↔ 65 ≤ c.val ∧ c.val ≤ 90 ∨ 97 ≤ c.val ∧ c.val ≤ 122 := by
  change (decide (c.val ≥ 65 ∧ c.val ≤ 90) || decide (c.val ≥ 97) && decide (c.val ≤ 122)) = true ↔ _
  simp

/-- A capital moves to its small letter, and any other character stays. -/
theorem toLower_cases (c : Char) :
    ¬(65 ≤ c.val ∧ c.val ≤ 90) ∧ c.toLower = c ∨ (65 ≤ c.val ∧ c.val ≤ 90) ∧ c.toLower.val = c.val + 32 := by
  by_cases hupper : c.val ≥ 'A'.val ∧ c.val ≤ 'Z'.val
  · exact .inr ⟨hupper, congrArg Char.val (dif_pos hupper)⟩
  · exact .inl ⟨hupper, dif_neg hupper⟩

theorem isAlpha_toLower (c : Char) : c.toLower.isAlpha = c.isAlpha := by
  rcases toLower_cases c with ⟨-, hsame⟩ | ⟨hupper, hval⟩
  · rw [hsame]
  · rw [Bool.eq_iff_iff, isAlpha_iff, isAlpha_iff, hval]
    grind

/-- No letter becomes something else. -/
theorem toLower_eq_iff (hd : d.isAlpha = false) : c.toLower = d ↔ c = d := by
  rcases toLower_cases c with ⟨-, hsame⟩ | ⟨hupper, -⟩
  · rw [hsame]
  · have hc : c.isAlpha = true := isAlpha_iff.mpr (.inl hupper)
    refine iff_of_false ?_ ?_
    · rintro rfl
      rw [isAlpha_toLower, hc] at hd
      cases hd
    · rintro rfl
      rw [hc] at hd
      cases hd

theorem toLower_toLower (c : Char) : c.toLower.toLower = c.toLower := by
  rcases toLower_cases c with ⟨-, hsame⟩ | ⟨hupper, hval⟩
  · rw [hsame, hsame]
  · rcases toLower_cases c.toLower with ⟨-, hsame⟩ | ⟨hupper', -⟩
    · exact hsame
    · rw [hval] at hupper'
      grind

theorem lower_lower (s : String) : lower (lower s) = lower s := by
  simp only [lower, String.toList_ofList, List.map_map]
  exact congrArg String.ofList (List.map_congr_left fun c _ => toLower_toLower c)

end Stylesheet.Text
