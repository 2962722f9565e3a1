import Stylesheet.Text.Escape
import Mathlib.Data.List.TakeWhile

/-!
# What an escape takes along

An escape takes along hexadecimal digits and the space that ends them, and nothing else. The text that stands for it
is a letter, a digit, or a backslash with the digits behind it. If it takes nothing along and a token comes next, the
backslash stays.
-/

namespace Stylesheet.Text.Escape

open List

theorem digitsOf_eq_take (after : List Char) : digitsOf after = after.take (digitsOf after).length := by
  unfold digitsOf
  generalize hdigits : after.takeWhile Char.isHexDigit = digits
  have hprefix : digits <+: after := hdigits ▸ takeWhile_prefix _
  exact prefix_iff_eq_take.mp ((List.take_prefix maxDigits digits).trans hprefix)

theorem isHexDigit_of_mem_digitsOf {after : List Char} {c : Char} (h : c ∈ digitsOf after) : c.isHexDigit = true :=
  mem_takeWhile_imp (mem_of_mem_take h)

/-- The character that an escape names. -/
def named (after : List Char) : Char := Char.ofNat (codeOf (digitsOf after))

/-- The text of an escape whose backslash is not dropped. -/
def writtenText (after : List Char) : String :=
  if (named after).isAlphanum then String.singleton (named after)
  else if (digitsOf after).isEmpty && (after.drop (digitsOf after).length).head? == some ' ' then "\\ "
  else "\\" ++ String.ofList (digitsOf after)

/-- How many characters an escape takes along. -/
def takenLength (after : List Char) : Nat :=
  let behind := after.drop (digitsOf after).length
  if behind.head?.any isSpace && !((behind.drop 1).head?.any Char.isHexDigit && !(named after).isAlphanum) then
    (digitsOf after).length + 1
  else (digitsOf after).length

/-- An escape is written as it is, unless it is a backslash in front of something other than a token. -/
theorem read_eq (drop : Bool) (after : List Char) :
    read drop after
      = if writtenText after == "\\" && drop && !(after.drop (takenLength after)).head?.any isTokenChar then
          { text := "", length := takenLength after, change := some .dropped }
        else
          { text := writtenText after, length := takenLength after
            change :=
              if (named after).isAlphanum then
                some (.replaced (String.ofList (digitsOf after)) (named after))
              else none } :=
  rfl

theorem length_read (drop : Bool) (after : List Char) : (read drop after).length = takenLength after := by
  rw [read_eq]
  split <;> rfl

theorem text_read (drop : Bool) (after : List Char) :
    (read drop after).text = writtenText after ∨
      (read drop after).text = "" ∧ (after.drop (takenLength after)).head?.any isTokenChar = false := by
  rw [read_eq]
  split
  · next h =>
    simp only [Bool.and_eq_true, Bool.not_eq_true'] at h
    exact .inr ⟨rfl, h.2⟩
  · exact .inl rfl

/-- No exclamation mark comes out of an escape. -/
theorem mark_notMem_read (drop : Bool) (after : List Char) : '!' ∉ (read drop after).text.toList := by
  rcases text_read drop after with h | ⟨h, -⟩
  · rw [h, writtenText]
    split
    · next halnum =>
      rw [String.toList_singleton, mem_singleton]
      intro hc
      rw [← hc] at halnum
      exact absurd halnum (by decide)
    · split
      · decide
      · rw [String.toList_append, mem_append]
        rintro (hc | hc)
        · exact absurd hc (by decide)
        · rw [String.toList_ofList] at hc
          exact absurd (isHexDigit_of_mem_digitsOf hc) (by decide)
  · simp [h]

/-- The last character that an escape takes along is a digit or a space. -/
theorem getLast?_take_takenLength (after : List Char) :
    ∀ c ∈ (after.take (takenLength after)).getLast?, c.isHexDigit = true ∨ isSpace c = true := by
  intro c hc
  unfold takenLength at hc
  simp only at hc
  split at hc
  · next hspace =>
    -- the space that ends the digits is taken along
    rw [Bool.and_eq_true, head?_drop] at hspace
    cases hnext : after[(digitsOf after).length]? with
    | none => simp [hnext] at hspace
    | some d =>
      rw [take_add_one, hnext, Option.toList_some, getLast?_concat] at hc
      rw [hnext] at hspace
      cases hc
      exact .inr hspace.1
  · rw [← digitsOf_eq_take] at hc
    exact .inl (isHexDigit_of_mem_digitsOf (mem_of_getLast? hc))

theorem length_digitsOf_le (after : List Char) : (digitsOf after).length ≤ after.length := by
  rw [digitsOf_eq_take]
  exact length_take_le' _ _

/-- An escape does not lead beyond the end of the text. -/
theorem takenLength_le (after : List Char) : takenLength after ≤ after.length := by
  have hdigits := length_digitsOf_le after
  unfold takenLength
  simp only
  split
  · next hspace =>
    -- there is a space behind the digits
    rw [Bool.and_eq_true, head?_drop] at hspace
    by_contra hle
    rw [getElem?_eq_none (by omega)] at hspace
    simp at hspace
  · exact hdigits

/-- An escape without digits is written as its backslash, with a blank if there is one. -/
theorem writtenText_of_nil {after : List Char} (h : digitsOf after = []) :
    writtenText after = if after.head? = some ' ' then "\\ " else "\\" := by
  have hnamed : (Char.ofNat (codeOf [])).isAlphanum = false := by decide
  simp [writtenText, named, h, hnamed]

/-- An escape without digits takes one space along, or nothing. -/
theorem takenLength_of_nil {after : List Char} (h : digitsOf after = []) :
    takenLength after = 0 ∨ takenLength after = 1 ∧ after.head?.any isSpace = true := by
  unfold takenLength
  simp only [h, length_nil, drop_zero]
  split
  · next hspace =>
    rw [Bool.and_eq_true] at hspace
    exact .inr ⟨rfl, hspace.1⟩
  · exact .inl rfl

/-- In front of a token the backslash stays. -/
theorem text_read_of_token {drop : Bool} {after : List Char} (h : takenLength after = 0)
    (htoken : after.head?.any isTokenChar = true) : (read drop after).text = "\\" := by
  have hdigits : digitsOf after = [] := by
    unfold takenLength at h
    simp only at h
    split at h
    · omega
    · exact eq_nil_of_length_eq_zero h
  have hblank : after.head? ≠ some ' ' := by
    intro hhead
    rw [hhead] at htoken
    exact absurd htoken (by decide)
  have hwritten : writtenText after = "\\" := by rw [writtenText_of_nil hdigits, if_neg hblank]
  rcases text_read drop after with htext | ⟨-, hnone⟩
  · rw [htext, hwritten]
  · rw [h, drop_zero, htoken] at hnone
    cases hnone

end Stylesheet.Text.Escape
