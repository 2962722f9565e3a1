import Stylesheet.Proofs.Reader.Bare
import Stylesheet.Proofs.Reader.View

/-!
# Strings in values

A string with double quotes is read character by character up to its end. In the value of a declaration it then loses
its quotes, unless its content or its property cannot do without them (`stringValue`, `reads_value_string`).
-/

namespace Stylesheet.Reader

open State Text List

variable {before : List Char} {s : State}
variable {o : Options} {tail : List Char}

/-! ## The content of a string -/

/-- A character that stands for itself in a string with double quotes. -/
def isPlainInString (c : Char) : Prop := c ≠ '"' ∧ c ≠ '\\' ∧ c ≠ '\n' ∧ c ≠ '\r'

/-- A step over a character of a string. -/
theorem next_string {c : Char} (hmode : s.mode = .string) (hquote : s.quote = '"') (hc : isPlainInString c) :
    next o ⟨⟨before, c :: tail⟩, s⟩ = ⟨⟨c :: before, tail⟩, { s with string := s.string.push c }⟩ := by
  obtain ⟨hdouble, -, hnewline, -⟩ := hc
  refine next_of_alone (by simp [hmode]) ?_
  simp [countLine, step, hmode, inString, hnewline, hquote, hdouble]

/-- The characters of a string are read one by one. -/
theorem run_string {content : List Char} (hcontent : ∀ c ∈ content, isPlainInString c)
    (hmode : s.mode = .string) (hquote : s.quote = '"') :
    run o ⟨⟨before, content ++ tail⟩, s⟩ =
      run o ⟨⟨content.reverse ++ before, tail⟩, { s with string := s.string ++ String.ofList content }⟩ := by
  induction content generalizing s before with
  | nil =>
    rw [String.ofList_nil, String.append_empty]
    rfl
  | cons c content ih =>
    obtain ⟨hc, hrest⟩ := forall_mem_cons.mp hcontent
    have hstring : s.string ++ String.ofList (c :: content) = s.string.push c ++ String.ofList content := by
      apply String.toList_injective
      simp [String.toList_append]
    rw [cons_append, ← run_next, next_string hmode hquote hc, hstring, reverse_cons, append_assoc, singleton_append]
    exact ih hrest hmode hquote

/-- A string in the value of the property cannot do without its quotes. -/
def KeepsQuotes (property content : String) : Prop :=
  quotedProperties.contains property = true ∨ content = "" ∨ content.toList.any needsQuotes = true

instance (property content : String) : Decidable (KeepsQuotes property content) :=
  inferInstanceAs (Decidable (_ ∨ _ ∨ _))

/-- What is left of a string in the value of a property. -/
def stringValue (property content : String) : String :=
  if KeepsQuotes (lower (trim property)) content then "\"" ++ content ++ "\"" else content

theorem stringText_eq (ho : o.preserveCss = false) (hkeep : s.keepQuotes = false) {content : String}
    (hstring : s.string = "\"" ++ content ++ "\"") : s.stringText o = stringValue s.property content := by
  have hinner : Text.inner s.string = content := by
    rw [Text.inner, hstring]
    simp [String.toList_append]
  have hquoted : doubleQuoted s.string = "\"" ++ content ++ "\"" := by
    have hmem : hasChar s.string '"' = true := by
      rw [hasChar, hstring]
      simp [String.toList_append]
    rw [doubleQuoted, if_pos hmem, hstring]
  have hor : (content.isEmpty || content.toList.any needsQuotes) = true ↔
      content = "" ∨ content.toList.any needsQuotes = true := by simp
  unfold stringText unquoted
  simp only [ho, hkeep, hinner, hquoted, Bool.false_eq_true, if_false, Bool.false_or]
  by_cases hkeeps : KeepsQuotes (lower (trim s.property)) content
  · rw [stringValue, if_pos hkeeps]
    rcases hkeeps with hproperty | hcontent
    · rw [if_pos hproperty]
    · rw [if_pos (hor.mpr hcontent), ite_self]
  · rw [stringValue, if_neg hkeeps]
    obtain ⟨hproperty, hcontent⟩ := not_or.mp hkeeps
    rw [if_neg hproperty, if_neg (mt hor.mp hcontent)]

section Strings

variable {returns : List Mode} {frames : List Frame} {origin : Keyword.AtBody} {property : String} {parts : Value.Parts}

/-- A quote in a value starts a string. -/
theorem next_quote (hmode : s.mode = .value) (hbefore : oddBackslashes before = false)
    (htail : tail ≠ []) : next o ⟨⟨before, '"' :: tail⟩, s⟩ = ⟨⟨'"' :: before, tail⟩, s.beginString '"' false⟩ := by
  have hescaped : Text.Cursor.escaped ⟨before, '"' :: tail⟩ = false := hbefore
  have htoken : Text.Cursor.atToken ⟨before, '"' :: tail⟩ = true := (atToken_eq hescaped rfl).trans (by decide)
  have hcomment : atComment ⟨before, '"' :: tail⟩ = false := atComment_eq_false rfl (by decide)
  refine next_of_alone (by simp [hmode]) ((step_value hmode _ _).trans ?_)
  simp [inValue, htail, htoken, hcomment]

/-- The closing quote ends the string. -/
theorem next_closingQuote (hmode : s.mode = .string) (hquote : s.quote = '"')
    (hbefore : oddBackslashes before = false) :
    next o ⟨⟨before, '"' :: tail⟩, s⟩ = ⟨⟨'"' :: before, tail⟩, { s with string := s.string.push '"' }.closeString o⟩ := by
  have hescaped : Text.Cursor.escaped ⟨before, '"' :: tail⟩ = false := hbefore
  refine next_of_alone (by simp [hmode]) ?_
  simp [countLine, step, hmode, inString, hquote, hescaped]

/-- The end of a string goes back to the value around it. -/
theorem closeString_value (hreturns : s.returns = .value :: returns) :
    s.closeString o =
      { s with string := "", keepQuotes := false, mode := .value, returns, part := s.part ++ s.stringText o } := by
  simp [closeString, popMode, hreturns]

/-- **A string in a value** becomes part of a word. -/
theorem reads_value_string (ho : o.preserveCss = false) {content : String}
    (hcontent : ∀ c ∈ content.toList, isPlainInString c) :
    Reads o tail { mode := .value, returns, frames, origin, property, parts } ("\"" ++ content ++ "\"")
      { mode := .value, returns, frames, origin, property
        parts := { parts with word := parts.word ++ stringValue property content } } := by
  refine ⟨?_, fun s before hs hbefore => ?_⟩
  · simp only [String.toList_append, mem_append, not_or]
    exact ⟨⟨by decide, fun hmem => (hcontent '\r' hmem).2.2.2 rfl⟩, by decide⟩
  have hmode : s.mode = .value := hs.mode
  have htext : ("\"" ++ content ++ "\"").toList ++ tail = '"' :: (content.toList ++ '"' :: tail) := by
    simp [String.toList_append]
  have hinside : oddBackslashes (content.toList.reverse ++ '"' :: before) = false := by
    by_cases hempty : content.toList = []
    · rw [hempty]
      rfl
    · exact oddBackslashes_reverse_append hempty (fun hlast => (hcontent _ (mem_of_getLast? hlast)).2.1 rfl) _
  -- the state behind the content, in front of the closing quote
  generalize hbehind : ({ s.beginString '"' false with
    string := (s.beginString '"' false).string ++ String.ofList content.toList } : State) = t
  have hrun : run o ⟨⟨before, '"' :: (content.toList ++ '"' :: tail)⟩, s⟩ =
      run o ⟨⟨'"' :: (content.toList.reverse ++ '"' :: before), tail⟩, { t with string := t.string.push '"' }.closeString o⟩ := by
    rw [← run_next, next_quote hmode hbefore (by simp), run_string hcontent rfl rfl, hbehind, ← run_next,
      next_closingQuote (hbehind ▸ rfl) (hbehind ▸ rfl) hinside]
  have hreturns : ({ t with string := t.string.push '"' } : State).returns = .value :: returns := by
    rw [← hbehind]
    exact congrArg₂ cons hmode hs.returns
  have hstring : t.string.push '"' = "\"" ++ content ++ "\"" := by
    rw [← hbehind]
    apply String.toList_injective
    simp [beginString, pushMode, String.toList_append]
  have htextValue : ({ t with string := t.string.push '"' } : State).stringText o = stringValue property content := by
    have hproperty : t.property = property := by
      rw [← hbehind]
      exact hs.property
    rw [← hproperty]
    exact stringText_eq ho (hbehind ▸ rfl) hstring
  rw [closeString_value hreturns, htextValue] at hrun
  rw [htext, hrun]
  refine ⟨_, _, ?_, ?_, rfl⟩
  · subst hbehind
    exact ⟨rfl, rfl, hs.builds.congr rfl rfl, by simp, hs.selector, hs.property,
      congrArg (· ++ stringValue property content) hs.word, hs.done, hs.headless⟩
  · rfl

end Strings

end Stylesheet.Reader
