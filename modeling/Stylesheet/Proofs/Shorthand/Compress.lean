import Stylesheet.Shorthand.Box
import Stylesheet.Proofs.Text.Split

/-!
# Leaving words out

Words are left out at the end only, so that what is left can still stand side by side and is read back word by word
(`words_compressed`). The sides of the box keep their values (`sideWords_compressWords`), and the words that are left
depend on nothing but the sides (`compressWords_of_sideWords`). So no fewer words have the same sides, and leaving words
out a second time changes nothing (`compress_keeps_sides`).
-/

namespace Stylesheet.Shorthand

open Text

theorem exists_append_compressWords (ws : List String) : ∃ rest, compressWords ws ++ rest = ws := by
  fun_cases compressWords ws <;> simp

/-- The values of a pair. -/
def pairWords : List String → Option (List String)
  | [a] => some [a, a]
  | [a, b] => some [a, b]
  | _ => none

theorem sideWords_compressWords (ws : List String) : sideWords (compressWords ws) = sideWords ws := by
  fun_cases compressWords ws with
  | case1 a b c d hall =>
    simp only [Bool.and_eq_true, beq_iff_eq] at hall
    obtain ⟨⟨rfl, rfl⟩, rfl⟩ := hall
    rfl
  | case5 a b c hall =>
    simp only [Bool.and_eq_true, beq_iff_eq] at hall
    obtain ⟨rfl, rfl⟩ := hall
    rfl
  | _ => simp_all [sideWords]

theorem pairWords_compressWords (a b : String) : pairWords (compressWords [a, b]) = some [a, b] := by
  by_cases h : a = b <;> simp [compressWords, pairWords, h]

/-- The words that are left are read back from the text. -/
theorem words_compressed {ws : List String} (h : SideBySide ws) : words (compressed ws) = compressWords ws := by
  obtain ⟨rest, hrest⟩ := exists_append_compressWords ws
  rw [← hrest] at h
  exact words_joinWith h.of_append

theorem words_compress (text : String) : words (compress text) = compressWords (words text) :=
  words_compressed (sideBySide_words text)

theorem compressWords_compressWords (ws : List String) : compressWords (compressWords ws) = compressWords ws := by
  fun_cases compressWords ws <;> simp_all [compressWords]

theorem compress_compress (text : String) : compress (compress text) = compress text := by
  rw [compress, words_compress, compressed, compressWords_compressWords]
  rfl

/-! ## As few words as possible -/

theorem length_compressWords_le (ws : List String) : (compressWords ws).length ≤ ws.length := by
  obtain ⟨rest, hrest⟩ := exists_append_compressWords ws
  have hlength := congrArg List.length hrest
  rw [List.length_append] at hlength
  omega

/-- The words that are left are those of the four sides: how the sides were written does not matter. -/
theorem compressWords_of_sideWords {ws sides : List String} (h : sideWords ws = some sides) :
    compressWords ws = compressWords sides := by
  fun_cases sideWords ws with
  | case1 a =>
    obtain rfl : [a, a, a, a] = sides := Option.some.inj h
    simp [compressWords]
  | case2 a b =>
    obtain rfl : [a, b, a, b] = sides := Option.some.inj h
    by_cases hab : a = b <;> simp [compressWords, hab]
  | case3 a b c =>
    obtain rfl : [a, b, c, b] = sides := Option.some.inj h
    by_cases hab : a = b <;> simp [compressWords, hab]
  | case4 a b c d =>
    obtain rfl : [a, b, c, d] = sides := Option.some.inj h
    rfl
  | case5 => simp [sideWords] at h

theorem length_compressWords_le_of_sideWords {ws us sides : List String} (hws : sideWords ws = some sides)
    (hus : sideWords us = some sides) : (compressWords ws).length ≤ us.length := by
  rw [compressWords_of_sideWords hws, ← compressWords_of_sideWords hus]
  exact length_compressWords_le us

theorem length_sideWords {ws sides : List String} (h : sideWords ws = some sides) : sides.length = 4 := by
  unfold sideWords at h
  split at h <;> cases h <;> rfl

/-- The values of the sides are read off the longhands. -/
theorem sideWords_of_dissolveBox? {property : String} {value : Value} {longhands : List Declaration}
    (h : dissolveBox? property value = some longhands) :
    sideWords (words value.text) = some (longhands.map (·.2.text)) := by
  have hfour : ∀ g ∈ boxGroups, g.longhands.length = 4 := by decide
  obtain ⟨g, hg, hdissolve⟩ := Option.bind_eq_some_iff.mp h
  obtain ⟨sides, hsides, rfl⟩ := Option.map_eq_some_iff.mp hdissolve
  have hlength : sides.length = g.longhands.length := by
    rw [length_sideWords hsides, hfour g (List.mem_of_find?_eq_some hg)]
  have htexts : (fun x : String × String => x.2) = Prod.snd := rfl
  simp only [List.map_map, Function.comp_def]
  rw [hsides, htexts, List.map_snd_zip (Nat.le_of_eq hlength)]

/-- **Leaving words out of a box** keeps the four sides and their importance, changes nothing when it is done again, and
goes as far as it can: every value with the same sides has at least as many words. -/
theorem compress_keeps_sides (property : String) (value : Value) :
    dissolveBox? property { value with text := compress value.text } = dissolveBox? property value ∧
      compress (compress value.text) = compress value.text ∧
      ∀ (other : Value) (longhands others : List Declaration), dissolveBox? property value = some longhands →
        dissolveBox? property other = some others → others.map (·.2.text) = longhands.map (·.2.text) →
          (words (compress value.text)).length ≤ (words other.text).length := by
  refine ⟨?_, compress_compress value.text, ?_⟩
  · simp only [dissolveBox?, Group.dissolve?, words_compress, sideWords_compressWords]
  · intro other longhands others hlonghands hothers hsame
    have hvalue := sideWords_of_dissolveBox? hlonghands
    have hother := sideWords_of_dissolveBox? hothers
    rw [hsame] at hother
    rw [words_compress]
    exact length_compressWords_le_of_sideWords hvalue hother

/-- Four words of which two can be left out. -/
def calculatedMargin : Value := ⟨"calc(1px + 2px)\t0 calc(1px + 2px)  0", true⟩

/-- The same sides with three words. -/
def shortMargin : Value := ⟨"calc(1px + 2px) 0 calc(1px + 2px)", false⟩

theorem compress_keeps_sides_calculatedMargin :
    compress calculatedMargin.text = "calc(1px + 2px) 0" ∧
      dissolveBox? "margin" calculatedMargin
        = some [("margin-top", ⟨"calc(1px + 2px)", true⟩), ("margin-right", ⟨"0", true⟩),
          ("margin-bottom", ⟨"calc(1px + 2px)", true⟩), ("margin-left", ⟨"0", true⟩)] ∧
      dissolveBox? "margin" shortMargin
        = some [("margin-top", ⟨"calc(1px + 2px)", false⟩), ("margin-right", ⟨"0", false⟩),
          ("margin-bottom", ⟨"calc(1px + 2px)", false⟩), ("margin-left", ⟨"0", false⟩)] ∧
      (words (compress calculatedMargin.text)).length ≤ (words shortMargin.text).length := by
  have hfour : dissolveBox? "margin" calculatedMargin
      = some [("margin-top", ⟨"calc(1px + 2px)", true⟩), ("margin-right", ⟨"0", true⟩),
        ("margin-bottom", ⟨"calc(1px + 2px)", true⟩), ("margin-left", ⟨"0", true⟩)] := by decide +kernel
  have hthree : dissolveBox? "margin" shortMargin
      = some [("margin-top", ⟨"calc(1px + 2px)", false⟩), ("margin-right", ⟨"0", false⟩),
        ("margin-bottom", ⟨"calc(1px + 2px)", false⟩), ("margin-left", ⟨"0", false⟩)] := by decide +kernel
  exact ⟨by decide +kernel, hfour, hthree,
    (compress_keeps_sides "margin" calculatedMargin).2.2 shortMargin _ _ hfour hthree rfl⟩

end Stylesheet.Shorthand
