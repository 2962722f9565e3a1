import Stylesheet.Reader.Tree
import Stylesheet.Proofs.Text.Trim
import Mathlib.Data.List.Basic

/-!
# What the text of a value shows of its importance

The mark of importance is cut off a value when it is read, and put behind its text again when it is written. A
text that happens to end with the same letters could be taken for a marked one. This module shows when that can
happen: only if a backslash stands in front of the mark (`honest_joinParts`). It rests on one property of the
parts of a value: an exclamation mark with nothing but letters and space behind it stands behind a backslash
(`MarkEscaped`), since one that is not escaped is a part of its own.
-/

namespace Stylesheet.Value

open List

/-- The text ends like a marked one only behind a backslash, unless the value is important. -/
def Honest (v : Value) : Prop :=
  v.important = false → ∀ rest, v.text.toList = rest ++ "!important".toList → rest.getLast? = some '\\'

/-- An exclamation mark with nothing but letters and space behind it stands behind a backslash. -/
def MarkEscaped (text : List Char) : Prop :=
  ∀ front tail, text = front ++ '!' :: tail → (∀ c ∈ tail, c.isAlpha = true ∨ Text.isSpace c = true) →
    front.getLast? = some '\\'

namespace MarkEscaped

theorem nil : MarkEscaped [] := by
  intro front tail h
  simp at h

/-- Text without exclamation marks may be added. -/
theorem append {text more : List Char} (h : MarkEscaped text) (hmore : '!' ∉ more) : MarkEscaped (text ++ more) := by
  intro front tail heq htail
  rcases append_eq_append_iff.mp heq with ⟨inner, -, hinner⟩ | ⟨inner, htext, hinner⟩
  · exact absurd (by simp [hinner]) hmore
  · cases inner with
    | nil =>
      rw [nil_append] at hinner
      exact absurd (by simp [← hinner]) hmore
    | cons c inner =>
      obtain ⟨rfl, rfl⟩ := cons.inj hinner
      exact h front inner htext fun c hc => htail c (mem_append_left _ hc)

/-- A character that is no letter and no space closes the text for what comes before it. -/
theorem concat {c : Char} (text : List Char) (halpha : c.isAlpha = false) (hspace : Text.isSpace c = false)
    (hmark : c ≠ '!') : MarkEscaped (text ++ [c]) := by
  intro front tail heq htail
  -- the last character of the text lies behind the mark
  obtain rfl | ⟨tail, d, rfl⟩ := eq_nil_or_concat' tail
  · exact absurd (append_inj_right' heq rfl) (by simpa using hmark)
  · rw [← cons_append, ← append_assoc] at heq
    obtain rfl : c = d := by simpa using append_inj_right' heq rfl
    rcases htail c (by simp) with h | h
    · exact absurd h (by simp [halpha])
    · exact absurd h (by simp [hspace])

/-- A mark behind a backslash may be added. -/
theorem mark {text : List Char} (hlast : text.getLast? = some '\\') : MarkEscaped (text ++ ['!']) := by
  intro front tail heq htail
  obtain rfl | ⟨tail, d, rfl⟩ := eq_nil_or_concat' tail
  · rw [← append_inj_left' heq rfl]
    exact hlast
  · rw [← cons_append, ← append_assoc] at heq
    obtain rfl : '!' = d := by simpa using append_inj_right' heq rfl
    have hmark : ¬ ('!'.isAlpha = true ∨ Text.isSpace '!' = true) := by decide
    exact absurd (htail '!' (by simp)) hmark

/-- Space at the ends may be dropped. -/
theorem trim {text : String} (h : MarkEscaped text.toList) : MarkEscaped (Text.trim text).toList := by
  obtain ⟨left, right, htext, hleft, hright⟩ := Text.exists_trimBoth Text.isSpace text.toList
  intro front tail heq htail
  rw [Text.trim, String.toList_ofList] at heq
  have hlast := h (left ++ front) (tail ++ right) (by rw [htext, heq]; simp) ?_
  · obtain rfl | ⟨front, c, rfl⟩ := eq_nil_or_concat' front
    · -- the backslash would have to be one of the spaces
      rw [append_nil] at hlast
      exact absurd (hleft _ (mem_of_getLast? hlast)) (by decide)
    · simpa [← append_assoc] using hlast
  · intro c hc
    rcases mem_append.mp hc with hc | hc
    · exact htail c hc
    · exact .inr (hright c hc)

end MarkEscaped

/-! ## Parts -/

/-- A part of a value: one of the two marks, or a word. -/
def IsPart (part : String) : Prop := part = "," ∨ part = "!" ∨ part ≠ "" ∧ MarkEscaped part.toList

theorem IsPart.ne_empty {part : String} (h : IsPart part) : part ≠ "" := by
  rcases h with rfl | rfl | h
  · decide
  · decide
  · exact h.1

/-- A value that is glued ends with a mark. -/
theorem glued_join {parts : List String} (h : ∀ part ∈ parts, IsPart part)
    (hglued : (parts.foldl Joined.add ⟨"", false⟩).glued = true) :
    ∃ mark : Char, (mark = ',' ∨ mark = '!') ∧ parts.getLast? = some (String.singleton mark) ∧
      (parts.foldl Joined.add ⟨"", false⟩).text.toList.getLast? = some mark := by
  obtain rfl | ⟨parts, part, rfl⟩ := eq_nil_or_concat' parts
  · cases hglued
  have hpart : part ≠ "" := (h part (by simp)).ne_empty
  have hempty : ¬ part.isEmpty := by simpa using hpart
  rw [foldl_append, foldl_cons, foldl_nil] at hglued ⊢
  generalize parts.foldl Joined.add ⟨"", false⟩ = j at hglued ⊢
  unfold Joined.add at hglued ⊢
  simp only [hempty] at hglued ⊢
  by_cases hcomma : part = ","
  · exact ⟨',', .inl rfl, by simp [hcomma], by simp [hcomma]⟩
  · by_cases hmark : part = "!"
    · exact ⟨'!', .inr rfl, by simp [hmark], by simp [hmark]⟩
    · simp [hcomma, hmark] at hglued

/-- The mark of importance at the end of a value is two parts: it cannot come about in any other way. -/
theorem getLast?_of_joinParts {parts : List String} (h : ∀ part ∈ parts, IsPart part) {rest : List Char}
    (htext : (joinParts parts).toList = rest ++ "!important".toList) :
    rest.getLast? = some '\\' ∨ ∃ front, parts = front ++ ["!", "important"] := by
  obtain rfl | ⟨parts, part, rfl⟩ := eq_nil_or_concat' parts
  · exact absurd htext (by simp [joinParts])
  have hlast := h part (by simp)
  have hempty : ¬ part.isEmpty := by simpa using hlast.ne_empty
  have hparts : ∀ part ∈ parts, IsPart part := fun part hpart => h part (by simp [hpart])
  have hglued := glued_join hparts
  unfold joinParts at htext
  rw [foldl_append, foldl_cons, foldl_nil] at htext
  generalize parts.foldl Joined.add ⟨"", false⟩ = j at htext hglued
  unfold Joined.add at htext
  simp only [hempty] at htext
  have hend := congrArg getLast? htext
  rw [getLast?_append_of_ne_nil _ (by decide)] at hend
  by_cases hcomma : part = ","
  · simp [hcomma] at hend
  by_cases hmark : part = "!"
  · simp [hmark] at hend
  simp only [Bool.false_eq_true, if_false, beq_eq_false_iff_ne.mpr hcomma, beq_eq_false_iff_ne.mpr hmark,
    String.toList_append] at htext
  have hescaped : MarkEscaped part.toList := by
    rcases hlast with h | h | h
    · exact absurd h hcomma
    · exact absurd h hmark
    · exact h.2
  have hletters : ∀ c ∈ "important".toList, c.isAlpha = true ∨ Text.isSpace c = true := by
    have hall : "important".toList.all Char.isAlpha = true := by decide
    exact fun c hc => .inl (all_eq_true.mp hall c hc)
  rcases append_eq_append_iff.mp htext with ⟨inner, hrest, hinner⟩ | ⟨inner, hspaced, hinner⟩
  · -- the whole mark lies in the last part
    left
    have hbackslash := hescaped inner "important".toList hinner hletters
    obtain ⟨front, rfl⟩ := getLast?_eq_some_iff.mp hbackslash
    rw [hrest, ← append_assoc, getLast?_concat]
  -- the mark begins in front of the last part, so that its first character is the last one there
  cases inner with
  | nil =>
    have hnone := hescaped [] "important".toList hinner.symm hletters
    cases hnone
  | cons c inner =>
    obtain ⟨rfl, hword⟩ : '!' = c ∧ "important".toList = inner ++ part.toList := cons.inj hinner
    have hinside : ∀ x ∈ inner, x ∈ "important".toList := fun x hx => hword ▸ mem_append_left _ hx
    obtain ⟨x, hx⟩ : ∃ x, ('!' :: inner).getLast? = some x :=
      ⟨_, getLast?_eq_some_getLast (cons_ne_nil _ _)⟩
    have hletter : x ∈ "!important".toList := by
      rcases mem_cons.mp (mem_of_getLast? hx) with hx | hx
      · exact hx ▸ by decide
      · exact mem_cons_of_mem _ (hinside x hx)
    have hspacedLast := congrArg getLast? hspaced
    rw [getLast?_append_of_ne_nil _ (cons_ne_nil _ _), hx] at hspacedLast
    split at hspacedLast
    · next hcond =>
      rcases (Bool.or_eq_true _ _).mp hcond with hempty | hjoined
      · simp only [String.isEmpty_iff] at hempty
        simp [hempty] at hspacedLast
      obtain ⟨mark, rfl | rfl, hlastPart, hlastChar⟩ := hglued hjoined
      · cases Option.some.inj (hlastChar.symm.trans hspacedLast)
        exact absurd hletter (by decide)
      · right
        have hinner : inner = [] := by
          by_contra hne
          have hlast : inner.getLast? = some '!' := by
            rw [← getLast?_cons_of_ne_nil hne, hx]
            exact hspacedLast.symm.trans hlastChar
          exact absurd (hinside '!' (mem_of_getLast? hlast)) (by decide)
        subst hinner
        obtain ⟨front, rfl⟩ := getLast?_eq_some_iff.mp hlastPart
        have hpart : part = "important" := String.toList_inj.mp hword.symm
        exact ⟨front, by rw [hpart, append_assoc]; rfl⟩
    · have hblank : ' ' = x := by simpa using hspacedLast
      exact absurd (hblank ▸ hletter) (by decide)

/-- **What the text of a value shows.** A value put together of parts is important, or its text ends like a marked
one only behind a backslash. -/
theorem honest_joinParts {parts : List String} (h : ∀ part ∈ parts, IsPart part)
    (himportant : ¬ ∃ front, parts = front ++ ["!", "important"]) :
    Honest ⟨joinParts parts, false⟩ := by
  intro _ rest htext
  exact (getLast?_of_joinParts h htext).resolve_right himportant

end Stylesheet.Value
