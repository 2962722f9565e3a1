import Stylesheet.Proofs.Decimal.Grammar
import Stylesheet.Proofs.Text.Letters
import Stylesheet.Proofs.Text.Word
import Mathlib.Data.List.TakeWhile

/-!
# What is left of a part of a value

The parts of a value are put in order one by one, and most stay as they are. A part that is changed is a color or a
number, and then it is written with few characters: letters, digits, and the signs of numbers, shares and colors
(`IsMeasure`). Only the argument of a font format gets quotes (`tidyPart_cases`).
-/

namespace Stylesheet

namespace Value

open Decimal Text List

variable {c : Char} {s : List Char} {text property : String} {line : Nat} {texts : List String}

/-- A character of a number with its unit, of two such numbers with a slash between them, or of a color. -/
def isMeasureChar (c : Char) : Bool := c.isAlphanum || ['#', '%', '-', '.', '/'].contains c

/-- A text that a color or a number may be written as. -/
structure IsMeasure (s : String) : Prop where
  ne_empty : s ≠ ""
  chars : ∀ c ∈ s.toList, isMeasureChar c = true

/-! ## Characters -/

theorem isMeasureChar_of_isDigit (h : c.isDigit = true) : isMeasureChar c = true := by
  simp [isMeasureChar, Char.isAlphanum, h]

theorem isMeasureChar_of_isAlpha (h : c.isAlpha = true) : isMeasureChar c = true := by
  simp [isMeasureChar, Char.isAlphanum, h]

theorem isMeasureChar_of_isHexDigit (h : c.isHexDigit = true) : isMeasureChar c = true := by
  by_cases hdigit : c.isDigit = true
  · exact isMeasureChar_of_isDigit hdigit
  · apply isMeasureChar_of_isAlpha
    rw [isAlpha_iff]
    simp only [Char.isHexDigit] at h
    grind

theorem isMeasureChar_toLower (h : c.isAlpha = true ∨ c = '%') : isMeasureChar c.toLower = true := by
  rcases h with h | rfl
  · apply isMeasureChar_of_isAlpha
    rwa [isAlpha_toLower]
  · decide

theorem ne_of_isMeasureChar {d : Char} (h : isMeasureChar c = true) (hd : isMeasureChar d = false) : c ≠ d := by
  rintro rfl
  exact absurd (h.symm.trans hd) (by decide)

theorem IsMeasure.append {s t : String} (hs : IsMeasure s) (ht : ∀ c ∈ t.toList, isMeasureChar c = true) :
    IsMeasure (s ++ t) := by
  refine ⟨by simp [hs.ne_empty], fun c hc => ?_⟩
  rw [String.toList_append] at hc
  exact (mem_append.mp hc).elim (hs.chars c) (ht c)

/-! ## Numbers -/

theorem cutSign_append (s : List Char) : (cutSign s).1 ++ (cutSign s).2 = s := by
  unfold cutSign
  split <;> rfl

theorem mem_compressChars (h : c ∈ compressChars s) : c ∈ s ∨ c = '0' ∨ c = '.' := by
  have hsign := subset_append_left (cutSign s).1 (cutSign s).2
  have hbody := subset_append_right (cutSign s).1 (cutSign s).2
  rw [cutSign_append] at hsign hbody
  have hwhole : (cutPoint (cutSign s).2).1 ⊆ s :=
    fun d hd => hbody ((List.takeWhile_prefix _).subset hd)
  have hfraction : (cutPoint (cutSign s).2).2 ⊆ s :=
    fun d hd => hbody ((dropWhile_suffix _).subset (mem_of_mem_drop hd))
  have hzeros (digits : List Char) : dropLastZeros digits ⊆ digits := by
    intro d hd
    exact mem_reverse.mp ((dropWhile_suffix _).subset (mem_reverse.mp hd))
  unfold compressChars at h
  simp only at h
  split at h
  · exact .inr (.inl (mem_singleton.mp h))
  · rcases mem_append.mp h with h | h
    · rcases mem_append.mp h with h | h
      · exact .inl (hsign h)
      · exact .inl (hwhole ((dropWhile_suffix _).subset h))
    · split at h
      · cases h
      · rcases mem_cons.mp h with h | h
        · exact .inr (.inr h)
        · exact .inl (hfraction (hzeros _ h))

theorem compressChars_ne_nil (s : List Char) : compressChars s ≠ [] := by
  unfold compressChars
  simp only
  split
  · simp
  · next h =>
    simp only [Bool.and_eq_true, not_and_or, List.isEmpty_iff] at h
    rcases h with h | h
    · simp [h]
    · simp [h]

/-- The shortest spelling of a number is there, and has no characters of its own but zero and the point. -/
theorem isMeasure_compress {s : String} (h : ∀ c ∈ s.toList, isMeasureChar c = true) : IsMeasure (compress s) := by
  refine ⟨by simpa [compress] using compressChars_ne_nil s.toList, fun c hc => ?_⟩
  rw [compress, String.toList_ofList] at hc
  rcases mem_compressChars hc with hc | rfl | rfl
  · exact h c hc
  · decide
  · decide

/-- A number is written with digits and at most a sign and a point. -/
theorem isMeasureChar_of_isNumber {number : String} (h : IsNumber number) : ∀ c ∈ number.toList, isMeasureChar c = true := by
  obtain ⟨n, hn⟩ := mem_numberGrammar.mp h
  intro c hc
  rw [← hn] at hc
  rcases Spelling.mem_chars hc with hdigit | rfl | rfl
  · exact isMeasureChar_of_isDigit hdigit
  · decide
  · decide

theorem isMeasureChar_positional (d : Nat) (e : Int) : ∀ c ∈ (positional d e).toList, isMeasureChar c = true := by
  have hdigits : ∀ c ∈ Nat.toDigits 10 d, isMeasureChar c = true :=
    fun c hc => isMeasureChar_of_isDigit (Nat.isDigit_of_mem_toDigits (by decide) (by decide) hc)
  have hzeros (n : Nat) : ∀ c ∈ replicate n '0', isMeasureChar c = true := by
    intro c hc
    rw [eq_of_mem_replicate hc]
    decide
  intro c hc
  unfold positional at hc
  simp only at hc
  split at hc
  · rw [String.toList_ofList] at hc
    exact (mem_append.mp hc).elim (hdigits c) (hzeros _ c)
  · have hpadded (n : Nat) : ∀ c ∈ replicate n '0' ++ Nat.toDigits 10 d, isMeasureChar c = true :=
      fun c hc => (mem_append.mp hc).elim (hzeros _ c) (hdigits c)
    rw [String.toList_ofList] at hc
    rcases mem_append.mp hc with hc | hc
    · exact hpadded _ c (mem_of_mem_take hc)
    · rcases mem_cons.mp hc with rfl | hc
      · decide
      · exact hpadded _ c (mem_of_mem_drop hc)

theorem isMeasureChar_text (x : Magnitude) : ∀ c ∈ x.text.toList, isMeasureChar c = true := by
  unfold Magnitude.text
  split
  · split
    · exact all_eq_true.mp (by decide)
    · exact isMeasureChar_positional _ _
  · exact all_eq_true.mp (by decide)

theorem isMeasure_scaledText (negative : Bool) (x : Magnitude) (num den : Nat) :
    IsMeasure (scaledText negative x num den) := by
  unfold scaledText
  refine isMeasure_compress fun c hc => ?_
  rw [String.toList_append] at hc
  rcases mem_append.mp hc with hc | hc
  · cases negative with
    | true =>
      rw [mem_singleton.mp hc]
      decide
    | false => cases hc
  · exact isMeasureChar_text _ c hc

/-! ## Numbers with units -/

/-- A number and a unit that may stand in a measure. -/
def Measure.IsSound (m : Measure) : Prop := IsMeasure m.1 ∧ ∀ c ∈ m.2.toList, isMeasureChar c = true

theorem isMeasureChar_exchanges (unit : String) :
    ∀ e ∈ exchanges unit, ∀ c ∈ e.unit.toList, isMeasureChar c = true := by
  have hall : (exchanges unit).all (·.unit.toList.all isMeasureChar) = true := by
    unfold exchanges
    split <;> decide
  intro e he
  exact all_eq_true.mp (all_eq_true.mp hall e he)

/-- An exchange of units along a chain is a number with one of the units of the chain. -/
theorem isSound_shortestExchange {negative : Bool} {x : Magnitude} {num den : Nat} {best : Measure}
    {steps : List Exchange} (hbest : best.IsSound) (hsteps : ∀ e ∈ steps, ∀ c ∈ e.unit.toList, isMeasureChar c = true) :
    (shortestExchange negative x num den best steps).IsSound := by
  induction steps generalizing num den best with
  | nil => exact hbest
  | cons step steps ih =>
    rw [shortestExchange]
    refine ih ?_ fun e he => hsteps e (mem_cons_of_mem _ he)
    split
    · exact ⟨isMeasure_scaledText _ _ _ _, hsteps step mem_cons_self⟩
    · exact hbest

theorem isSound_exchangeUnit {number unit : String} (hnumber : ∀ c ∈ number.toList, isMeasureChar c = true)
    (hunit : ∀ c ∈ unit.toList, isMeasureChar c = true) : (exchangeUnit number unit).IsSound :=
  isSound_shortestExchange ⟨isMeasure_compress hnumber, hunit⟩ (isMeasureChar_exchanges unit)

/-- A number with its unit holds the characters of both. -/
theorem isMeasureChar_of_ofText? {numeric : Numeric} (h : Numeric.ofText? text = some numeric) :
    (∀ c ∈ text.toList, isMeasureChar c = true) ∧ (∀ c ∈ numeric.number.toList, isMeasureChar c = true) ∧
      ∀ c ∈ (lower numeric.unit).toList, isMeasureChar c = true := by
  have hwritten := Numeric.ofText?_eq_some_iff.mp h
  have hnumber := isMeasureChar_of_isNumber hwritten.number
  have hletters : ∀ c ∈ numeric.unit.toList, c.isAlpha = true ∨ c = '%' :=
    fun c hc => isLetter_or_of_mem_unitGrammar hwritten.unit hc
  refine ⟨fun c hc => ?_, hnumber, fun c hc => ?_⟩
  · rw [hwritten.text, String.toList_append] at hc
    rcases mem_append.mp hc with hc | hc
    · exact hnumber c hc
    · rcases hletters c hc with hc | rfl
      · exact isMeasureChar_of_isAlpha hc
      · decide
  · rw [lower, String.toList_ofList] at hc
    obtain ⟨d, hd, rfl⟩ := mem_map.mp hc
    exact isMeasureChar_toLower (hletters d hd)

/-- A number with its unit is read as a number with a unit, and has no characters of any other kind. -/
theorem isSound_analyse {convert : Bool} {m : Measure} {messages : List Message}
    (h : analyse convert text line = some (m, messages)) :
    (∀ c ∈ text.toList, isMeasureChar c = true) ∧ m.IsSound := by
  unfold analyse at h
  split at h
  · next hzero =>
    cases h
    rw [beq_iff_eq.mp hzero]
    have hchars : ∀ c ∈ "0".toList, isMeasureChar c = true := all_eq_true.mp (by decide)
    exact ⟨hchars, ⟨by decide, hchars⟩, nofun⟩
  · split at h
    · cases h
    · next numeric hnumeric =>
      obtain ⟨htext, hnumber, hunit⟩ := isMeasureChar_of_ofText? hnumeric
      split at h
      · cases h
      · cases h
        refine ⟨htext, ?_⟩
        cases convert with
        | true => exact isSound_exchangeUnit hnumber hunit
        | false => exact ⟨isMeasure_compress hnumber, hunit⟩

theorem isMeasureChar_settleUnit {number unit : String} (h : ∀ c ∈ unit.toList, isMeasureChar c = true) :
    ∀ c ∈ (settleUnit property text number unit line).1.toList, isMeasureChar c = true := by
  have hpixels : "px".toList.all isMeasureChar = true := by decide
  unfold settleUnit
  split
  · split
    · exact all_eq_true.mp hpixels
    · exact h
  · split
    · nofun
    · exact h

/-! ## Parts -/

theorem isMeasure_of_shortenAll {convert : Bool} {shortened : List String}
    (h : (shortenAll convert property line texts).1 = some shortened) :
    (∀ text ∈ texts, ∀ c ∈ text.toList, isMeasureChar c = true) ∧ (∀ s ∈ shortened, IsMeasure s) ∧
      shortened.length = texts.length := by
  induction texts generalizing shortened with
  | nil =>
    cases h
    exact ⟨nofun, nofun, rfl⟩
  | cons text texts ih =>
    unfold shortenAll at h
    split at h
    · cases h
    · next number unit found hanalyse =>
      obtain ⟨rest, hrest, rfl⟩ := Option.map_eq_some_iff.mp h
      obtain ⟨htexts, hmeasures, hlength⟩ := ih hrest
      obtain ⟨htext, hsound⟩ := isSound_analyse hanalyse
      refine ⟨forall_mem_cons.mpr ⟨htext, htexts⟩, forall_mem_cons.mpr ⟨?_, hmeasures⟩, ?_⟩
      · exact hsound.1.append (isMeasureChar_settleUnit hsound.2)
      · rw [length_cons, length_cons, hlength]

theorem isMeasureChar_joinWith (h : ∀ s ∈ texts, ∀ c ∈ s.toList, isMeasureChar c = true) :
    ∀ c ∈ (joinWith "/" texts).toList, isMeasureChar c = true := by
  induction texts with
  | nil => nofun
  | cons text texts ih =>
    obtain ⟨htext, htexts⟩ := forall_mem_cons.mp h
    cases texts with
    | nil => exact htext
    | cons next rest =>
      intro c hc
      rw [joinWith, String.toList_append, String.toList_append] at hc
      rcases mem_append.mp hc with hc | hc
      · rcases mem_append.mp hc with hc | hc
        · exact htext c hc
        · rw [mem_singleton.mp hc]
          decide
      · exact ih htexts c hc

theorem isMeasure_joinWith (h : ∀ s ∈ texts, IsMeasure s) (hne : texts ≠ []) : IsMeasure (joinWith "/" texts) := by
  refine ⟨?_, isMeasureChar_joinWith fun s hs => (h s hs).chars⟩
  obtain ⟨text, rest, rfl⟩ := exists_cons_of_ne_nil hne
  have htext := (h text mem_cons_self).ne_empty
  cases rest with
  | nil => exact htext
  | cons next rest => simp [joinWith, htext]

theorem numbersOf_ne_nil (property part : String) : numbersOf property part ≠ [] := by
  unfold numbersOf
  split
  · simp [splitOn_ne_nil]
  · simp

/-- A part holds its numbers, and slashes between them. -/
theorem isMeasureChar_of_numbersOf {part : String}
    (h : ∀ text ∈ numbersOf property part, ∀ c ∈ text.toList, isMeasureChar c = true) :
    ∀ c ∈ part.toList, isMeasureChar c = true := by
  unfold numbersOf at h
  split at h
  · have hjoin : joinWith "/" ((part.toList.splitOn '/').map String.ofList) = part := joinWith_splitOn '/' part
    have hchars := isMeasureChar_joinWith h
    rwa [hjoin] at hchars
  · exact h part (mem_singleton.mpr rfl)

/-- Numbers that are shortened are measures, before and after. -/
theorem shortenNumber_cases (convert : Bool) (property part : String) (line : Nat) :
    (shortenNumber convert property part line).1 = part ∨
      (∀ c ∈ part.toList, isMeasureChar c = true) ∧ IsMeasure (shortenNumber convert property part line).1 := by
  unfold shortenNumber
  simp only
  cases hall : (shortenAll convert property line (numbersOf property part)).1 with
  | none => exact .inl rfl
  | some shortened =>
    obtain ⟨htexts, hmeasures, hlength⟩ := isMeasure_of_shortenAll hall
    refine .inr ⟨isMeasureChar_of_numbersOf htexts, isMeasure_joinWith hmeasures fun hnil => ?_⟩
    rw [hnil] at hlength
    exact numbersOf_ne_nil property part (length_eq_zero_iff.mp hlength.symm)

/-- A color that is mended is a measure, before and after. -/
theorem mendColor_cases (property part : String) (line : Nat) :
    (mendColor property part line).1 = part ∨
      (∀ c ∈ part.toList, isMeasureChar c = true) ∧ IsMeasure (mendColor property part line).1 := by
  unfold mendColor
  split
  · exact .inl rfl
  · split
    · next hbare =>
      simp only [isBareHex, Bool.and_eq_true, all_eq_true] at hbare
      have hchars (c : Char) (hc : c ∈ part.toList) : isMeasureChar c = true := isMeasureChar_of_isHexDigit (hbare.2 c hc)
      have hsign : IsMeasure "#" := ⟨by decide, all_eq_true.mp (by decide)⟩
      exact .inr ⟨hchars, hsign.append hchars⟩
    · exact .inl rfl

/-- A measure has no parenthesis. -/
theorem IsMeasure.quoteFormat?_eq {s : String} (h : IsMeasure s) : Text.quoteFormat? s = none :=
  quoteFormat?_eq_none fun hmem => absurd (h.chars '(' hmem) (by decide)

end Value

open Value (IsMeasure)

/-- **A part stays as it is**, or it is a measure and becomes another one, or it is a font format that gets quotes. -/
theorem Reader.State.tidyPart_cases (o : Options) (property : String) (line : Nat) (part : String) :
    (tidyPart o property line part).1 = part ∨
      (∀ c ∈ part.toList, Value.isMeasureChar c = true) ∧ IsMeasure (tidyPart o property line part).1 ∨
      Text.quoteFormat? part = some (tidyPart o property line part).1 := by
  have hformat : (Text.quoteFormat? part).getD part = part ∨
      Text.quoteFormat? part = some ((Text.quoteFormat? part).getD part) := by
    cases Text.quoteFormat? part with
    | none => exact .inl rfl
    | some text => exact .inr rfl
  have hmeasure {s : String} (h : IsMeasure s) : IsMeasure ((Text.quoteFormat? s).getD s) := by
    rw [h.quoteFormat?_eq]
    exact h
  unfold tidyPart
  split
  · exact .inl rfl
  · cases o.preserveCss with
    | true => exact hformat.imp_right .inr
    | false =>
      simp only [Bool.false_eq_true, if_false]
      rcases Value.mendColor_cases property part line with hcolor | ⟨hchars, hcolor⟩
      · rw [hcolor]
        rcases Value.shortenNumber_cases o.convertUnit property part line with hnumber | ⟨hchars, hnumber⟩
        · rw [hnumber]
          exact hformat.imp_right .inr
        · exact .inr (.inl ⟨hchars, hmeasure hnumber⟩)
      · rcases Value.shortenNumber_cases o.convertUnit property (Value.mendColor property part line).1 line
          with hnumber | ⟨-, hnumber⟩
        · rw [hnumber]
          exact .inr (.inl ⟨hchars, hmeasure hcolor⟩)
        · exact .inr (.inl ⟨hchars, hmeasure hnumber⟩)

end Stylesheet
