import Stylesheet.Proofs.Text.Word
import Stylesheet.Value.Join
import Mathlib.Data.List.Induction

/-!
# Taking a value apart

A value is put together from its parts, and it is read part by part again: a blank ends a word, and a comma ends one
and is a part of its own. This module says what reading makes of a text (`partsOf`), and that it undoes putting
together where the parts are words and commas (`partsOf_joinParts`).
-/

namespace Stylesheet.Value

open Text List

variable {w : String} {parts : List String}

/-- Parts that are being read: the word so far, and what is finished. -/
structure Parts where
  word : String := ""
  done : List String := []

namespace Parts

/-- All parts, if the word is finished too. -/
def all (p : Parts) : List String :=
  let word := trim p.word
  if word.isEmpty then p.done else p.done ++ [word]

/-- One more character. -/
def next (p : Parts) (c : Char) : Parts :=
  if c = ' ' then { done := p.all }
  else if c = ',' then { done := p.all ++ [","] }
  else { p with word := p.word.push c }

/-- More characters one by one. -/
def scan (p : Parts) (text : List Char) : Parts := text.foldl next p

theorem scan_append (p : Parts) (a b : List Char) : p.scan (a ++ b) = (p.scan a).scan b :=
  foldl_append

theorem scan_ordinary {run : List Char} (h : ∀ c ∈ run, isOrdinary c = true) (p : Parts) :
    p.scan run = { p with word := p.word ++ String.ofList run } := by
  induction run generalizing p with
  | nil => simp [scan]
  | cons c run ih =>
    have hc := h c (by simp)
    have hnext : p.next c = { p with word := p.word.push c } := by
      rw [next, if_neg (ne_of_isOrdinary hc (by decide)), if_neg (ne_of_isOrdinary hc (by decide))]
    have hword : p.word ++ String.ofList (c :: run) = p.word.push c ++ String.ofList run := by
      apply String.toList_injective
      simp [String.toList_append]
    rw [hword]
    show (p.next c).scan run = _
    rw [ih (fun d hd => h d (mem_cons_of_mem _ hd)), hnext]

/-- A word without space at its ends is finished as it is. -/
theorem all_of_trim_eq (hne : w ≠ "") (htrim : trim w = w) (done : List String) : all ⟨w, done⟩ = done ++ [w] := by
  have hempty : w.isEmpty = false := by simpa using hne
  simp only [all, htrim, hempty, Bool.false_eq_true, if_false]

theorem all_of_word (h : IsWord w) (done : List String) : all ⟨w, done⟩ = done ++ [w] :=
  all_of_trim_eq (by simpa using h.ne_empty) h.trim_eq done

theorem all_of_empty (done : List String) : all ⟨"", done⟩ = done := by
  have htrim : trim "" = "" := by decide
  rw [all, htrim]
  rfl

end Parts

/-- The parts that a text is read as. -/
def partsOf (text : String) : List String := (Parts.scan {} text.toList).all

/-- A word, or a comma. -/
def IsWordOrComma (part : String) : Prop := IsWord part ∨ part = ","

instance (part : String) : Decidable (IsWordOrComma part) :=
  inferInstanceAs (Decidable (IsWord part ∨ part = ","))

/-! ## Putting words together -/

theorem joinWith_append_cons (sep a b : String) (rest : List String) :
    joinWith sep ((a ++ b) :: rest) = a ++ joinWith sep (b :: rest) := by
  cases rest with
  | nil => rfl
  | cons c rest => simp only [joinWith, String.append_assoc]

theorem add_word (h : IsWord w) (j : Joined) :
    j.add w = ⟨(if j.text.isEmpty || j.glued then j.text else j.text.push ' ') ++ w, false⟩ := by
  have hne : w.isEmpty = false := by simpa using h.ne_empty
  have hcomma : (w == ",") = false := beq_eq_false_iff_ne.mpr (h.ne (c := ',') (by decide) (by decide))
  have hmark : (w == "!") = false := beq_eq_false_iff_ne.mpr (h.ne (c := '!') (by decide) (by decide))
  simp only [Joined.add, hne, hcomma, hmark, Bool.false_eq_true, if_false]

theorem add_comma (j : Joined) : j.add "," = ⟨j.text.push ',', true⟩ := by
  simp [Joined.add]

/-- Behind some text each word brings its blank along. -/
theorem text_foldl_add {words : List String} (h : ∀ w ∈ words, IsWord w) {text : String} (htext : text.toList ≠ []) :
    (words.foldl Joined.add ⟨text, false⟩).text = joinWith " " (text :: words) := by
  induction words generalizing text with
  | nil => rfl
  | cons w words ih =>
    have hempty : text.isEmpty = false := by simpa using htext
    have hadd : Joined.add ⟨text, false⟩ w = ⟨text ++ " " ++ w, false⟩ := by
      rw [add_word (h w (by simp))]
      simp only [hempty, Bool.or_self, Bool.false_eq_true, if_false]
      congr 1
    have hne : (text ++ " " ++ w).toList ≠ [] := by simp [String.toList_append]
    rw [foldl_cons, hadd, ih (fun x hx => h x (mem_cons_of_mem _ hx)) hne, joinWith_append_cons]
    rfl

/-- Words are put together with blanks. -/
theorem joinParts_eq_joinWith {words : List String} (h : ∀ w ∈ words, IsWord w) :
    joinParts words = joinWith " " words := by
  cases words with
  | nil => rfl
  | cons w words =>
    have hw := h w (by simp)
    have hadd : Joined.add ⟨"", false⟩ w = ⟨w, false⟩ := by
      rw [add_word hw]
      simp
    unfold joinParts
    rw [foldl_cons, hadd, text_foldl_add (fun x hx => h x (mem_cons_of_mem _ hx)) hw.ne_empty]

/-! ## Reading what was put together -/

section

variable (h : ∀ part ∈ parts, IsWordOrComma part)
include h

/-- A value under construction is read as its parts, and nothing is left of a word where the next part is glued. -/
theorem scan_foldl_add :
    (Parts.scan {} (parts.foldl Joined.add ⟨"", false⟩).text.toList).all = parts ∧
      (((parts.foldl Joined.add ⟨"", false⟩).text.isEmpty || (parts.foldl Joined.add ⟨"", false⟩).glued) = true →
        (Parts.scan {} (parts.foldl Joined.add ⟨"", false⟩).text.toList).word = "") := by
  induction parts using reverseRecOn with
  | nil => exact ⟨Parts.all_of_empty [], fun _ => rfl⟩
  | append_singleton parts part ih =>
    obtain ⟨hall, hword⟩ := ih fun x hx => h x (mem_append_left _ hx)
    rw [foldl_append, foldl_cons, foldl_nil]
    generalize parts.foldl Joined.add ⟨"", false⟩ = j at hall hword ⊢
    rcases h part (by simp) with hpart | rfl
    · rw [add_word hpart]
      -- a word starts where no other one is left
      have hstart : (Parts.scan {} (if j.text.isEmpty || j.glued then j.text else j.text.push ' ').toList)
          = { done := parts } := by
        split
        · next hglued =>
          have hnil := hword hglued
          rw [← hall]
          generalize Parts.scan {} j.text.toList = p at hnil ⊢
          obtain ⟨word, done⟩ := p
          obtain rfl : word = "" := hnil
          rw [Parts.all_of_empty]
        · rw [String.toList_push, Parts.scan_append, ← hall]
          rfl
      rw [String.toList_append, Parts.scan_append, hstart, Parts.scan_ordinary hpart.ordinary,
        String.ofList_toList, String.empty_append]
      refine ⟨Parts.all_of_word hpart parts, fun hglued => absurd hglued ?_⟩
      have hne : part ≠ "" := by simpa using hpart.ne_empty
      simp [hne]
    · rw [add_comma, String.toList_push, Parts.scan_append, ← hall]
      exact ⟨Parts.all_of_empty _, fun _ => rfl⟩

/-- **Reading undoes putting together**, for words and commas. -/
theorem partsOf_joinParts : partsOf (joinParts parts) = parts :=
  (scan_foldl_add h).1

/-- The characters of words and commas that are put together. -/
theorem chars_joinParts : ∀ c ∈ (joinParts parts).toList, (isOrdinary c = true ∧ c ≠ '\r') ∨ c = ' ' ∨ c = ',' := by
  unfold joinParts
  induction parts using reverseRecOn with
  | nil => simp
  | append_singleton parts part ih =>
    have ih := ih fun x hx => h x (mem_append_left _ hx)
    rw [foldl_append, foldl_cons, foldl_nil]
    generalize parts.foldl Joined.add ⟨"", false⟩ = j at ih ⊢
    intro c hc
    rcases h part (by simp) with hpart | rfl
    · rw [add_word hpart, String.toList_append] at hc
      rcases mem_append.mp hc with hc | hc
      · split at hc
        · exact ih c hc
        · rw [String.toList_push] at hc
          rcases mem_append.mp hc with hc | hc
          · exact ih c hc
          · exact .inr (.inl (mem_singleton.mp hc))
      · refine .inl ⟨hpart.ordinary c hc, ?_⟩
        rintro rfl
        exact hpart.noReturn hc
    · rw [add_comma, String.toList_push] at hc
      rcases mem_append.mp hc with hc | hc
      · exact ih c hc
      · exact .inr (.inr (mem_singleton.mp hc))

end

end Stylesheet.Value
