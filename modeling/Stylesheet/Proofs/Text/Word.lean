import Stylesheet.Proofs.Text.Split
import Stylesheet.Proofs.Text.Trim
import Stylesheet.Reader.Tree
import Mathlib.Data.List.Basic

/-!
# Words and phrases

A word is made of ordinary characters, so that nothing in it ends, opens or separates anything. A phrase is words with
one blank between each two of them. The name of a selector is phrases with a comma between each two of them, and from
the name the phrases are found again (`IsName.fragmentsOf_eq`).
-/

namespace Stylesheet.Text

open List

variable {c : Char} {s p name : String} {fragments : List String}

/-- A text of ordinary characters, without carriage returns, which do not outlive the reading of a text. -/
structure IsWord (w : String) : Prop where
  ne_empty : w.toList ≠ []
  ordinary : ∀ c ∈ w.toList, isOrdinary c = true
  noReturn : '\r' ∉ w.toList

/-- Whether a text is a word. -/
def isWord (w : String) : Bool := !w.toList.isEmpty && w.toList.all fun c => isOrdinary c && c != '\r'

theorem isWord_iff (w : String) : isWord w = true ↔ IsWord w := by
  simp only [isWord, Bool.and_eq_true, Bool.not_eq_true', isEmpty_eq_false_iff, all_eq_true, bne_iff_ne]
  constructor
  · rintro ⟨hne, hall⟩
    exact ⟨hne, fun c hc => (hall c hc).1, fun hc => (hall '\r' hc).2 rfl⟩
  · intro h
    refine ⟨h.ne_empty, fun c hc => ⟨h.ordinary c hc, ?_⟩⟩
    rintro rfl
    exact h.noReturn hc

instance : DecidablePred IsWord := fun w => decidable_of_iff _ (isWord_iff w)

/-- Words with one blank between each two of them. -/
def IsPhrase (p : String) : Prop :=
  ∃ words, words ≠ [] ∧ (∀ w ∈ words, IsWord w) ∧ p = joinWith " " words

/-! ## Characters of words -/

theorem isSpace_of_isOrdinary (h : isOrdinary c = true) : isSpace c = false := by
  simp only [isOrdinary, Bool.and_eq_true, Bool.not_eq_true'] at h
  exact h.2

theorem isTokenChar_of_isOrdinary (h : isOrdinary c = true) : isTokenChar c = false := by
  simp only [isOrdinary, Bool.and_eq_true, Bool.not_eq_true'] at h
  exact h.1

theorem isSpace_of_isTokenChar (h : isTokenChar c = true) : isSpace c = false := by
  have hall : tokenChars.all (fun c => !isSpace c) = true := by decide
  have hmem : c ∈ tokenChars := contains_iff_mem.mp h
  simpa using all_eq_true.mp hall c hmem

theorem isTokenChar_of_isSpace (h : isSpace c = true) : isTokenChar c = false := by
  by_contra htoken
  simp [isSpace_of_isTokenChar (by simpa using htoken)] at h

theorem ne_of_isOrdinary {d : Char} (h : isOrdinary c = true) (hd : isOrdinary d = false) : c ≠ d := by
  rintro rfl
  exact absurd (h.symm.trans hd) (by decide)

theorem trim_eq_self (hhead : ∀ c ∈ s.toList.head?, isSpace c = false)
    (hlast : ∀ c ∈ s.toList.getLast?, isSpace c = false) : trim s = s := by
  rw [trim, trimBoth_eq_self hhead hlast, String.ofList_toList]

theorem IsWord.trim_eq {w : String} (h : IsWord w) : trim w = w := by
  apply trim_eq_self
  · intro c hc
    exact isSpace_of_isOrdinary (h.ordinary c (mem_of_mem_head? hc))
  · intro c hc
    exact isSpace_of_isOrdinary (h.ordinary c (mem_of_getLast? hc))

theorem IsWord.ne {w : String} (h : IsWord w) {other : String} (hc : c ∈ other.toList)
    (hordinary : isOrdinary c = false) : w ≠ other := by
  rintro rfl
  exact absurd ((h.ordinary c hc).symm.trans hordinary) (by decide)

/-- Only a text with a parenthesis is a font format. -/
theorem quoteFormat?_eq_none (h : '(' ∉ s.toList) : quoteFormat? s = none := by
  have hstart : startsWith s "format(" = false := by
    rw [Bool.eq_false_iff]
    exact fun hpre => h ((List.isPrefixOf_iff_prefix.mp hpre).subset (by decide))
  have hdrop : dropStart? s "format(" = none := by rw [dropStart?, hstart, if_neg (by decide)]
  rw [quoteFormat?, hdrop]
  rfl

/-- A font format with quotes ends with a parenthesis. -/
theorem getLast?_of_quoteFormat? {text : String} (h : quoteFormat? s = some text) : text.toList.getLast? = some ')' := by
  unfold quoteFormat? at h
  split at h
  · split at h
    · cases h
    · rw [← Option.some.inj h, String.toList_append, getLast?_append_of_ne_nil _ (by decide)]
      rfl
  · cases h

/-! ## Phrases -/

/-- A phrase is a word, or a word in front of a shorter phrase. -/
theorem IsPhrase.cases (h : IsPhrase p) : IsWord p ∨ ∃ w rest, IsWord w ∧ IsPhrase rest ∧ p = w ++ " " ++ rest := by
  obtain ⟨words, hne, hwords, rfl⟩ := h
  match words, hne with
  | [w], _ => exact .inl (hwords w (by simp))
  | w :: u :: rest, _ =>
    right
    refine ⟨w, joinWith " " (u :: rest), hwords w (by simp), ⟨u :: rest, by simp, ?_, rfl⟩, rfl⟩
    intro x hx
    exact hwords x (mem_cons_of_mem _ hx)

/-- What holds of words, and of a word in front of a phrase of which it holds, holds of phrases. -/
theorem IsPhrase.induction {P : String → Prop} (word : ∀ w, IsWord w → P w)
    (cons : ∀ w rest, IsWord w → IsPhrase rest → P rest → P (w ++ " " ++ rest)) (h : IsPhrase p) :
    P p := by
  obtain ⟨words, hne, hwords, rfl⟩ := h
  induction words with
  | nil => exact absurd rfl hne
  | cons w words ih =>
    cases words with
    | nil => exact word w (hwords w (by simp))
    | cons u rest =>
      have hrest : ∀ x ∈ u :: rest, IsWord x := fun x hx => hwords x (mem_cons_of_mem _ hx)
      exact cons w _ (hwords w (by simp)) ⟨u :: rest, by simp, hrest, rfl⟩ (ih (by simp) hrest)

theorem IsPhrase.ne_empty (h : IsPhrase p) : p.toList ≠ [] := by
  rcases h.cases with hword | ⟨w, rest, hword, -, rfl⟩
  · exact hword.ne_empty
  · simp [String.toList_append]

/-- The characters of a phrase. -/
theorem IsPhrase.chars (h : IsPhrase p) : ∀ c ∈ p.toList, (isOrdinary c = true ∧ c ≠ '\r') ∨ c = ' ' := by
  refine IsPhrase.induction (P := fun p => ∀ c ∈ p.toList, (isOrdinary c = true ∧ c ≠ '\r') ∨ c = ' ') ?_ ?_ h
  · intro w hw c hc
    refine .inl ⟨hw.ordinary c hc, ?_⟩
    rintro rfl
    exact hw.noReturn hc
  · intro w rest hw _ ih c hc
    simp only [String.toList_append, mem_append] at hc
    rcases hc with (hc | hc) | hc
    · refine .inl ⟨hw.ordinary c hc, ?_⟩
      rintro rfl
      exact hw.noReturn hc
    · exact .inr (by simpa using hc)
    · exact ih c hc

/-- A phrase starts with an ordinary character. -/
theorem IsPhrase.head (h : IsPhrase p) : ∃ c tail, p.toList = c :: tail ∧ isOrdinary c = true := by
  have of_word {w : String} (hw : IsWord w) : ∃ c tail, w.toList = c :: tail ∧ isOrdinary c = true := by
    obtain ⟨c, tail, htail⟩ := exists_cons_of_ne_nil hw.ne_empty
    exact ⟨c, tail, htail, hw.ordinary c (by simp [htail])⟩
  rcases h.cases with hword | ⟨w, rest, hword, -, rfl⟩
  · exact of_word hword
  · obtain ⟨c, tail, htail, hc⟩ := of_word hword
    exact ⟨c, tail ++ " ".toList ++ rest.toList, by simp [String.toList_append, htail], hc⟩

/-- A phrase ends with an ordinary character. -/
theorem IsPhrase.last (h : IsPhrase p) : ∃ front c, p.toList = front ++ [c] ∧ isOrdinary c = true := by
  refine IsPhrase.induction (P := fun p => ∃ front c, p.toList = front ++ [c] ∧ isOrdinary c = true) ?_ ?_ h
  · intro w hw
    obtain ⟨front, c, hfront⟩ := (eq_nil_or_concat' w.toList).resolve_left hw.ne_empty
    exact ⟨front, c, hfront, hw.ordinary c (by simp [hfront])⟩
  · rintro w rest - - ⟨front, c, hfront, hc⟩
    exact ⟨w.toList ++ " ".toList ++ front, c, by simp [String.toList_append, hfront], hc⟩

theorem IsPhrase.trim_eq (h : IsPhrase p) : trim p = p := by
  obtain ⟨c, tail, hhead, hc⟩ := h.head
  obtain ⟨front, d, hlast, hd⟩ := h.last
  apply trim_eq_self
  · intro x hx
    rw [hhead] at hx
    rw [← Option.some.inj hx]
    exact isSpace_of_isOrdinary hc
  · intro x hx
    rw [hlast, getLast?_concat] at hx
    rw [← Option.some.inj hx]
    exact isSpace_of_isOrdinary hd

/-! ## Names -/

/-- Phrases with a comma between each two of them. -/
def IsName (fragments : List String) (name : String) : Prop :=
  (∀ p ∈ fragments, IsPhrase p) ∧ name = joinWith "," fragments

/-- A character that neither splits nor nests. -/
def isPlain (c : Char) : Bool := isOrdinary c || c == ' '

theorem IsPhrase.plain (h : IsPhrase p) : ∀ c ∈ p.toList, isPlain c = true := by
  intro c hc
  rcases h.chars c hc with hc | rfl
  · simp [isPlain, hc.1]
  · rfl

theorem ne_of_isPlain {d : Char} (h : isPlain c = true) (hd : isPlain d = false) : c ≠ d := by
  rintro rfl
  exact absurd (h.symm.trans hd) (by decide)

theorem isInert_of_isPlain (h : isPlain c = true) : IsInert c := by
  have hne (d : Char) (hd : isPlain d = false) : (c == d) = false := beq_eq_false_iff_ne.mpr (ne_of_isPlain h hd)
  refine ⟨?_, ne_of_isPlain h (by decide)⟩
  simp [nests, hne '"' (by decide), hne '\'' (by decide), hne '(' (by decide), hne ')' (by decide)]

/-- Phrases can stand side by side between commas. -/
theorem splitFrom_joinWith (h : ∀ q ∈ p :: fragments, IsPhrase q) :
    splitFrom ',' .outside (joinWith "," (p :: fragments)).toList = (p :: fragments).map String.toList := by
  have hparts : ∀ part ∈ (p :: fragments).map String.toList,
      Whole ',' .outside part ∧ Nesting.outside.after part = .outside := by
    refine forall_mem_map.mpr fun q hq => whole_of_isInert fun c hc => ?_
    have hplain := (h q hq).plain c hc
    exact ⟨isInert_of_isPlain hplain, ne_of_isPlain hplain (by decide)⟩
  have hcomma : IsInert ',' := ⟨rfl, by decide⟩
  have hsep : ",".toList = [','] := rfl
  rw [toList_joinWith, hsep]
  refine splitFrom_intercalate hcomma (by simp) (separated_outside_iff.mpr ⟨?_, ?_⟩)
  · exact fun part hpart => (hparts part hpart).1
  · exact fun part hpart => (hparts part (dropLast_subset _ hpart)).2

section

variable (h : IsName fragments name)
include h

/-- The characters of a name. -/
theorem IsName.chars : ∀ c ∈ name.toList, (isOrdinary c = true ∧ c ≠ '\r') ∨ c = ' ' ∨ c = ',' := by
  obtain ⟨hfragments, rfl⟩ := h
  induction fragments with
  | nil => simp [joinWith]
  | cons p fragments ih =>
    have hp (c : Char) (hc : c ∈ p.toList) : (isOrdinary c = true ∧ c ≠ '\r') ∨ c = ' ' ∨ c = ',' :=
      ((hfragments p (by simp)).chars c hc).imp_right .inl
    cases fragments with
    | nil => exact hp
    | cons q fragments =>
      intro c hc
      simp only [joinWith, String.toList_append, mem_append] at hc
      rcases hc with (hc | hc) | hc
      · exact hp c hc
      · exact .inr (.inr (by simpa using hc))
      · exact ih (fun x hx => hfragments x (mem_cons_of_mem _ hx)) c hc

/-- A name that is not empty starts with an ordinary character and ends with one. -/
theorem IsName.ends (hne : fragments ≠ []) :
    (∃ c tail, name.toList = c :: tail ∧ isOrdinary c = true) ∧
      ∃ front c, name.toList = front ++ [c] ∧ isOrdinary c = true := by
  obtain ⟨hfragments, rfl⟩ := h
  induction fragments with
  | nil => exact absurd rfl hne
  | cons p fragments ih =>
    have hp := hfragments p (by simp)
    cases fragments with
    | nil => exact ⟨hp.head, hp.last⟩
    | cons q fragments =>
      obtain ⟨-, front, d, hfront, hd⟩ := ih (by simp) fun x hx => hfragments x (mem_cons_of_mem _ hx)
      obtain ⟨c, tail, htail, hc⟩ := hp.head
      simp only [joinWith, String.toList_append, htail, hfront] at hfront ⊢
      exact ⟨⟨c, _, cons_append, hc⟩, p.toList ++ ",".toList ++ front, d, by simp [htail], hd⟩

theorem IsName.trim_eq : trim name = name := by
  by_cases hne : fragments = []
  · obtain ⟨-, rfl⟩ := h
    rw [hne]
    decide
  obtain ⟨⟨c, tail, hhead, hc⟩, front, d, hlast, hd⟩ := h.ends hne
  apply trim_eq_self
  · intro x hx
    rw [hhead] at hx
    rw [← Option.some.inj hx]
    exact isSpace_of_isOrdinary hc
  · intro x hx
    rw [hlast, getLast?_concat] at hx
    rw [← Option.some.inj hx]
    exact isSpace_of_isOrdinary hd

/-- **The fragments of a name** are the phrases it was put together from. -/
theorem IsName.fragmentsOf_eq : Reader.State.fragmentsOf name = fragments := by
  obtain ⟨hfragments, rfl⟩ := h
  have hsplit : split ',' (joinWith "," fragments) = fragments := by
    cases fragments with
    | nil => rfl
    | cons p fragments =>
      obtain ⟨⟨c, tail, hhead, hc⟩, -⟩ := IsName.ends ⟨hfragments, rfl⟩ (cons_ne_nil p fragments)
      have hsome : ((joinWith "," (p :: fragments)).toList.isEmpty
          || (joinWith "," (p :: fragments)).toList == [',']) = false := by
        rw [hhead]
        have hcomma : c ≠ ',' := ne_of_isOrdinary hc (by decide)
        simp [hcomma]
      rw [split, splitChars, hsome, if_neg (by decide), splitFrom_joinWith hfragments, map_map]
      exact (map_congr_left fun x _ => String.ofList_toList).trans (map_id _)
  have htrim : fragments.map trim = fragments :=
    (map_congr_left fun p hp => (hfragments p hp).trim_eq).trans (map_id _)
  rw [Reader.State.fragmentsOf, hsplit, htrim, filter_eq_self]
  intro p hp
  have hne := (hfragments p hp).ne_empty
  simpa using hne

end

end Stylesheet.Text
