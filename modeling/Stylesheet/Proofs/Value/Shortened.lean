import Stylesheet.Proofs.Decimal.Canonical
import Stylesheet.Proofs.Text.Letters
import Stylesheet.Proofs.Value.Measure
import Mathlib.Data.List.Forall2

/-!
# Numbers in their shortest form

Without an exchange of units a number with a known unit, or with none, is written in its shortest spelling, with its unit
in small letters; a zero loses its unit, and any other number gets one where its property measures lengths
(`shortened`). Every other text stays as it is. What comes out is such a number again, is its own shortest form and has no
slash in it, so that shortening a part a second time changes nothing (`shortenNumber_settles`).
-/

namespace Stylesheet.Value

open Decimal Text List

variable {property text short : String} {m : Measure} {line : Nat} {texts shorts : List String}

/-- The text is a number of the grammar with a known unit, or with none. -/
structure Measure.Written (m : Measure) (text : String) : Prop where
  text : text = m.1 ++ m.2
  number : IsNumber m.1
  unit : m.2 = "" ∨ Keyword.isUnit m.2 = true

/-- The unit that a number other than zero is written with. -/
def unitFor (property unit : String) : String :=
  if unit = "" then if Property.requiresUnit property then "px" else "" else lower unit

/-- What a number of a property is shortened to. -/
def shortened (property : String) (m : Measure) : String :=
  if rational m.1 = 0 then "0" else compress m.1 ++ unitFor property m.2

/-! ## Units -/

theorem mem_unitGrammar_of_isUnit {unit : String} (h : Keyword.isUnit unit = true) :
    unit.toList ∈ unitGrammar.matches' := by
  have hall : ∀ u ∈ Keyword.units, isUnitText u.toList = true := by decide
  have hlower := hall _ (contains_iff_mem.mp h)
  rw [lower, String.toList_ofList] at hlower
  rw [mem_unitGrammar]
  simp only [isUnitText, Bool.or_eq_true, beq_iff_eq, all_eq_true] at hlower ⊢
  rcases hlower with hpercent | hletters
  · left
    obtain ⟨c, hc, hlower⟩ := map_eq_singleton_iff.mp hpercent
    rw [hc, (toLower_eq_iff rfl).mp hlower]
  · right
    intro c hc
    have hletter := hletters _ (mem_map_of_mem hc)
    rwa [isLetter, isAlpha_toLower] at hletter

theorem unitFor_eq_empty_or {unit : String} (h : unit = "" ∨ Keyword.isUnit unit = true) :
    unitFor property unit = "" ∨ Keyword.isUnit (unitFor property unit) = true := by
  unfold unitFor
  split
  · split
    · exact .inr (by decide)
    · exact .inl rfl
  · next hne =>
    right
    rw [Keyword.isUnit, lower_lower]
    exact h.resolve_left hne

theorem unitFor_unitFor (property unit : String) : unitFor property (unitFor property unit) = unitFor property unit := by
  unfold unitFor
  by_cases hnone : unit = ""
  · cases Property.requiresUnit property <;> simp [hnone, lower]
  · have hlower : lower unit ≠ "" := by simpa [lower] using hnone
    rw [if_neg hnone, if_neg hlower, lower_lower]

theorem Measure.Written.mem_unitGrammar (h : m.Written text) : m.2.toList ∈ unitGrammar.matches' := by
  rcases h.unit with hnone | hunit
  · rw [hnone]
    exact Decimal.mem_unitGrammar.mpr rfl
  · exact mem_unitGrammar_of_isUnit hunit

theorem Measure.Written.rational_eq (h : m.Written text) : rational text = rational m.1 := by
  obtain ⟨n, hn⟩ := mem_numberGrammar.mp h.number
  rw [rational_of_chars_eq hn]
  apply Spelling.rational_of_toList_eq h.mem_unitGrammar
  rw [h.text, String.toList_append, hn]

/-! ## One number -/

/-- A text can be taken for a number with a unit in one way only. -/
theorem Measure.Written.ofText?_eq (h : m.Written text) : Numeric.ofText? text = some ⟨m.1, m.2⟩ :=
  Numeric.ofText?_eq_some_iff.mpr ⟨h.text, h.number, h.mem_unitGrammar⟩

theorem analyse_of_written (h : m.Written text) (line : Nat) :
    ∃ messages, analyse false text line = some ((compress m.1, lower m.2), messages) := by
  unfold analyse
  split
  · next hzero =>
    rw [beq_iff_eq] at hzero
    have hread := h.ofText?_eq
    rw [hzero] at hread
    have hzero' : Numeric.ofText? "0" = some ⟨"0", ""⟩ := by decide
    rw [hzero', Option.some.injEq, Numeric.mk.injEq] at hread
    rw [← hread.1, ← hread.2]
    exact ⟨[], rfl⟩
  · rw [h.ofText?_eq]
    have hunit : (!m.2.isEmpty && !Keyword.isUnit m.2) = false := by
      rcases h.unit with hnone | hunit
      · simp [hnone]
      · simp [hunit]
    simp [hunit]

theorem exists_written_of_analyse {m' : Measure} {messages : List Message}
    (h : analyse false text line = some (m', messages)) : ∃ m : Measure, m.Written text := by
  unfold analyse at h
  split at h
  · next hzero =>
    rw [beq_iff_eq] at hzero
    rw [hzero]
    exact ⟨("0", ""), rfl, by decide, .inl rfl⟩
  · split at h
    · cases h
    · next numeric hread =>
      have hwritten := Numeric.ofText?_eq_some_iff.mp hread
      split at h
      · cases h
      · next hunit =>
        refine ⟨(numeric.number, numeric.unit), hwritten.text, hwritten.number, ?_⟩
        by_cases hnone : numeric.unit = ""
        · exact .inl hnone
        · exact .inr (by simpa [hnone] using hunit)

theorem eq_of_analyse {m' : Measure} {messages : List Message} (h : analyse false text line = some (m', messages)) :
    ∃ m : Measure, m.Written text ∧ m' = (compress m.1, lower m.2) := by
  obtain ⟨m, hm⟩ := exists_written_of_analyse h
  obtain ⟨messages', hsome⟩ := analyse_of_written hm line
  rw [h, Option.some.injEq, Prod.mk.injEq] at hsome
  exact ⟨m, hm, hsome.1⟩

theorem rational_zero : rational "0" = 0 := by decide +kernel

/-- Zero is the number that is compressed to `0`. -/
theorem compress_eq_zero_iff {number : String} (h : IsNumber number) : compress number = "0" ↔ rational number = 0 := by
  have hzero : IsNumber "0" := by decide
  have hcompress : compress "0" = "0" := by decide
  constructor
  · intro heq
    rw [← rational_compress h, heq, rational_zero]
  · intro heq
    rw [← hcompress]
    exact compress_eq_of_rational_eq h hzero (heq.trans rational_zero.symm)

/-- The number and the unit it is written with in the end. -/
theorem compress_append_settleUnit (h : m.Written text) :
    compress m.1 ++ (settleUnit property text (compress m.1) (lower m.2) line).1 = shortened property m := by
  unfold settleUnit shortened
  by_cases hzero : rational m.1 = 0
  · rw [(compress_eq_zero_iff h.number).mpr hzero, if_neg (by decide), if_pos hzero]
    by_cases hnone : (lower m.2).isEmpty = true
    · rw [if_neg (by simp [hnone]), String.isEmpty_iff.mp hnone]
      rfl
    · rw [if_pos (by simp [hnone])]
      rfl
  · have hcompress := mt (compress_eq_zero_iff h.number).mp hzero
    rw [if_pos (by simpa using hcompress), if_neg hzero]
    unfold unitFor
    by_cases hnone : m.2 = ""
    · rw [hnone, if_pos rfl]
      by_cases hlength : Property.requiresUnit property = true
      · rw [if_pos hlength, if_pos (by rw [hlength]; rfl)]
      · rw [if_neg hlength, if_neg (by simp [hlength])]
        rfl
    · have hlower : (lower m.2).isEmpty = false := by simpa [lower] using hnone
      rw [if_neg hnone, if_neg (by simp [hlower])]

/-- A text and what it is shortened to. -/
def Shortens (property text short : String) : Prop := ∃ m : Measure, m.Written text ∧ shortened property m = short

theorem shortens_iff (h : m.Written text) : Shortens property text short ↔ shortened property m = short := by
  refine ⟨?_, fun hshort => ⟨m, h, hshort⟩⟩
  rintro ⟨m', hm', hshort⟩
  have hsame := hm'.ofText?_eq.symm.trans h.ofText?_eq
  rw [Option.some.injEq, Numeric.mk.injEq] at hsame
  rwa [← Prod.ext hsame.1 hsame.2]

/-- What a number is shortened to is a number again that denotes the same, and is not shortened further. -/
theorem exists_written_shortened (property : String) (h : m.Written text) :
    ∃ m' : Measure, m'.Written (shortened property m) ∧ rational m'.1 = rational m.1 ∧
      shortened property m' = shortened property m := by
  by_cases hzero : rational m.1 = 0
  · have hshort : shortened property m = "0" := if_pos hzero
    rw [hshort, hzero]
    exact ⟨("0", ""), ⟨rfl, by decide, .inl rfl⟩, rational_zero, if_pos rational_zero⟩
  · have hshort : shortened property m = compress m.1 ++ unitFor property m.2 := if_neg hzero
    have hsame := rational_compress h.number
    refine ⟨(compress m.1, unitFor property m.2), ⟨hshort, isNumber_compress h.number, unitFor_eq_empty_or h.unit⟩, hsame, ?_⟩
    rw [hshort, shortened, if_neg (by rwa [hsame]), compress_compress h.number, unitFor_unitFor]

theorem Shortens.self (h : Shortens property text short) : Shortens property short short := by
  obtain ⟨m, hm, rfl⟩ := h
  obtain ⟨m', hm', -, hshort⟩ := exists_written_shortened property hm
  exact ⟨m', hm', hshort⟩

theorem Shortens.rational_eq (h : Shortens property text short) : rational short = rational text := by
  obtain ⟨m, hm, rfl⟩ := h
  obtain ⟨m', hm', hsame, -⟩ := exists_written_shortened property hm
  rw [hm'.rational_eq, hsame, hm.rational_eq]

/-- There is no slash in a number with its unit. -/
theorem Shortens.slash_notMem (h : Shortens property text short) : '/' ∉ text.toList := by
  obtain ⟨m, hm, -⟩ := h
  obtain ⟨n, hn⟩ := mem_numberGrammar.mp hm.number
  rw [hm.text, String.toList_append, ← hn, mem_append]
  rintro (hnumber | hunit)
  · exact absurd (Spelling.mem_chars hnumber) (by decide)
  · exact absurd (isLetter_or_of_mem_unitGrammar hm.mem_unitGrammar hunit) (by decide)

/-! ## Parts -/

/-- Texts are shortened one by one, and all of them have to be numbers. -/
theorem shortenAll_eq_some_iff :
    (shortenAll false property line texts).1 = some shorts ↔ Forall₂ (Shortens property) texts shorts := by
  induction texts generalizing shorts with
  | nil => simp [shortenAll, eq_comm]
  | cons text texts ih =>
    rw [shortenAll, forall₂_cons_left_iff]
    split
    · next hnone =>
      refine iff_of_false (by simp) ?_
      rintro ⟨short, -, ⟨m, hm, -⟩, -⟩
      obtain ⟨messages, hsome⟩ := analyse_of_written hm line
      cases hnone.symm.trans hsome
    · next number unit found hsome =>
      obtain ⟨m, hm, hmeasure⟩ := eq_of_analyse hsome
      obtain ⟨rfl, rfl⟩ := Prod.mk.inj hmeasure
      simp only [Option.map_eq_some_iff, ih, shortens_iff hm, compress_append_settleUnit hm]
      constructor
      · rintro ⟨rest, hrest, rfl⟩
        exact ⟨_, rest, rfl, hrest, rfl⟩
      · rintro ⟨_, rest, rfl, hrest, rfl⟩
        exact ⟨rest, hrest, rfl⟩

theorem forall₂_self (h : Forall₂ (Shortens property) texts shorts) :
    Forall₂ (Shortens property) shorts shorts := by
  induction h with
  | nil => exact .nil
  | cons hshort _ ih => exact .cons hshort.self ih

/-- The shortened numbers of a part are its numbers once they are joined again. -/
theorem numbersOf_joinWith {part : String} (h : Forall₂ (Shortens property) (numbersOf property part) shorts) :
    numbersOf property (joinWith "/" shorts) = shorts := by
  have hself := forall₂_same.mp (forall₂_self h)
  have hlength := h.length_eq
  by_cases hfont : property = "font"
  · have hne : shorts ≠ [] := by
      rintro rfl
      exact numbersOf_ne_nil property part (length_eq_zero_iff.mp hlength)
    have hslash : "/".toList = ['/'] := rfl
    rw [numbersOf, if_pos (beq_iff_eq.mpr hfont), toList_joinWith, hslash, splitOn_intercalate]
    · simp
    · exact forall_mem_map.mpr fun short hmem => (hself short hmem).slash_notMem
    · simpa using hne
  · have hone (s : String) : numbersOf property s = [s] := if_neg (by simpa using hfont)
    rw [hone, length_singleton] at hlength
    obtain ⟨short, rfl⟩ := length_eq_one_iff.mp hlength.symm
    exact hone short

/-- What a part is shortened to, if it is made of numbers. -/
theorem shortenNumber_of_forall₂ {part : String} (h : Forall₂ (Shortens property) (numbersOf property part) shorts)
    (line : Nat) : (shortenNumber false property part line).1 = joinWith "/" shorts := by
  unfold shortenNumber
  simp only [shortenAll_eq_some_iff.mpr h]
  rfl

theorem shortenNumber_of_not_exists {part : String}
    (h : ¬∃ shorts, Forall₂ (Shortens property) (numbersOf property part) shorts) (line : Nat) :
    (shortenNumber false property part line).1 = part := by
  unfold shortenNumber
  have hnone : (shortenAll false property line (numbersOf property part)).1 = none := by
    rw [Option.eq_none_iff_forall_ne_some]
    exact fun shorts hsome => h ⟨shorts, shortenAll_eq_some_iff.mp hsome⟩
  simp only [hnone]
  rfl

theorem shortenNumber_shortenNumber (property part : String) (line line' : Nat) :
    (shortenNumber false property (shortenNumber false property part line).1 line').1 =
      (shortenNumber false property part line).1 := by
  by_cases h : ∃ shorts, Forall₂ (Shortens property) (numbersOf property part) shorts
  · obtain ⟨shorts, hshorts⟩ := h
    have hagain : Forall₂ (Shortens property) (numbersOf property (joinWith "/" shorts)) shorts := by
      rw [numbersOf_joinWith hshorts]
      exact forall₂_self hshorts
    rw [shortenNumber_of_forall₂ hshorts, shortenNumber_of_forall₂ hagain]
  · rw [shortenNumber_of_not_exists h, shortenNumber_of_not_exists h]

/-- **Shortening settles at once and keeps what a number denotes.** A second time changes nothing. Outside of `font`, where
a part may hold several numbers, a part that is not a number with a known unit or none stays as it is. Any other part is
written in the shortest spelling of the number, with its unit in small letters; zero is `0` without a unit, and a number
other than zero without a unit gets `px` if and only if its property requires a unit. -/
theorem shortenNumber_settles (property part : String) (line line' : Nat) :
    (shortenNumber false property (shortenNumber false property part line).1 line').1 =
        (shortenNumber false property part line).1 ∧
      (property ≠ "font" →
        ((¬∃ m : Measure, m.Written part) → (shortenNumber false property part line).1 = part) ∧
        ∀ m : Measure, m.Written part →
          (shortenNumber false property part line).1 =
            (if rational m.1 = 0 then "0" else compress m.1 ++
              if m.2 = "" then if Property.requiresUnit property then "px" else "" else lower m.2) ∧
          rational (shortenNumber false property part line).1 = rational part) := by
  refine ⟨shortenNumber_shortenNumber property part line line', fun hfont => ?_⟩
  have hone : numbersOf property part = [part] := if_neg (by simpa using hfont)
  refine ⟨fun hnone => shortenNumber_of_not_exists ?_ line, fun m hm => ?_⟩
  · rintro ⟨shorts, hshorts⟩
    rw [hone] at hshorts
    obtain ⟨short, -, ⟨m, hm, -⟩, -⟩ := forall₂_cons_left_iff.mp hshorts
    exact hnone ⟨m, hm⟩
  · have hshort : Shortens property part (shortened property m) := ⟨m, hm, rfl⟩
    have hshorts : Forall₂ (Shortens property) (numbersOf property part) [shortened property m] := by
      rw [hone]
      exact .cons hshort .nil
    have hresult := shortenNumber_of_forall₂ hshorts line
    rw [hresult]
    exact ⟨rfl, hshort.rational_eq⟩

theorem shortenNumber_settles_halfEm :
    Measure.Written ("-0.50", "EM") "-0.50EM" ∧ (shortenNumber false "margin" "-0.50EM" 1).1 = "-.5em" ∧
      (shortenNumber false "margin" "-.5em" 1).1 = "-.5em" ∧ rational "-.5em" = rational "-0.50EM" := by
  have hwritten : Measure.Written ("-0.50", "EM") "-0.50EM" := ⟨rfl, by decide, .inr (by decide)⟩
  have hshort : (shortenNumber false "margin" "-0.50EM" 1).1 = "-.5em" := by decide
  obtain ⟨hagain, hkept⟩ := shortenNumber_settles "margin" "-0.50EM" 1 1
  obtain ⟨-, hsame⟩ := (hkept (by decide)).2 _ hwritten
  rw [hshort] at hagain hsame
  exact ⟨hwritten, hshort, hagain, hsame⟩

end Stylesheet.Value
