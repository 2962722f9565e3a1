import Stylesheet.Text.Cursor

/-!
# Cursors that move

Whether the character behind a cursor is escaped depends on the backslashes right in front of it. So behind any
other character nothing is escaped, and a backslash turns the answer around.
-/

namespace Stylesheet.Text

open List

theorem oddBackslashes_cons (c : Char) (before : List Char) :
    oddBackslashes (c :: before) = (c == '\\' && !oddBackslashes before) := by
  unfold oddBackslashes
  by_cases hc : c = '\\'
  · rw [takeWhile_cons_of_pos (by simp [hc]), length_cons]
    rcases Nat.mod_two_eq_zero_or_one ((before.takeWhile (· == '\\')).length) with h | h
    · simp [hc, h, Nat.add_mod]
    · simp [hc, h, Nat.add_mod]
  · rw [takeWhile_cons_of_neg (by simp [hc])]
    simp [hc]

/-- The character that was passed last decides whether the next one is escaped. -/
theorem oddBackslashes_reverse_append {passed : List Char} (hne : passed ≠ []) (h : passed.getLast? ≠ some '\\')
    (before : List Char) : oddBackslashes (passed.reverse ++ before) = false := by
  have hc : passed.getLast hne ≠ '\\' := fun heq => h (by rw [getLast?_eq_some_getLast hne, heq])
  rw [← dropLast_concat_getLast hne, reverse_append, reverse_singleton, singleton_append, cons_append, oddBackslashes_cons,
    beq_eq_false_iff_ne.mpr hc, Bool.false_and]

namespace Cursor

theorem escaped_advance {k : Cursor} {n : Nat} {c : Char} (h : (k.rest.take n).getLast? = some c)
    (hc : c ≠ '\\') : (k.advance n).escaped = false :=
  oddBackslashes_reverse_append (by rintro hnil; simp [hnil] at h) (by simpa [h] using hc) k.before

/-- Passing one character. -/
theorem escaped_advance_one {k : Cursor} {c : Char} {tail : List Char} (h : k.rest = c :: tail) :
    (k.advance 1).escaped = (c == '\\' && !k.escaped) := by
  unfold escaped advance
  rw [h]
  exact oddBackslashes_cons c k.before

/-- A token at the cursor is not escaped. -/
theorem escaped_of_atToken {k : Cursor} (h : k.atToken = true) : k.escaped = false := by
  simp only [atToken, Bool.and_eq_true, Bool.not_eq_true'] at h
  exact h.2

theorem isTokenChar_of_atToken {k : Cursor} {c : Char} {tail : List Char} (h : k.atToken = true)
    (hrest : k.rest = c :: tail) : isTokenChar c = true := by
  simp only [atToken, hrest, head?_cons, Option.any_some, Bool.and_eq_true] at h
  exact h.1

end Cursor

end Stylesheet.Text
