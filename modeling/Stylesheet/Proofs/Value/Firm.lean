import Stylesheet.Proofs.Text.Firm
import Stylesheet.Proofs.Value.Measure
import Mathlib.Data.List.Chain

/-!
# Values that escape nothing behind them

A value is put together from its parts, with a blank or a mark in front of each but the first. So it is firm if its last
part is. Cutting off the mark of importance uncovers the part in front of it, which is why that part has to be firm as
well (`MarksFirm`).
-/

namespace Stylesheet

open Text List

variable {parts : List String} {part : String}

/-- The last part is there, and firm. -/
def EndsFirm (parts : List String) : Prop := ∀ part ∈ parts.getLast?, part ≠ "" ∧ IsFirm part

/-- What stands in front of an exclamation mark is there, and firm. -/
def MarksFirm (parts : List String) : Prop := parts.IsChain fun part mark => mark = "!" → part ≠ "" ∧ IsFirm part

theorem endsFirm_nil : EndsFirm [] := by
  rintro part ⟨⟩

theorem endsFirm_concat : EndsFirm (parts ++ [part]) ↔ part ≠ "" ∧ IsFirm part := by
  simp [EndsFirm]

theorem EndsFirm.tail (h : EndsFirm (part :: parts)) : EndsFirm parts := by
  cases parts with
  | nil => exact endsFirm_nil
  | cons next rest => exact fun last hlast => h last (by rwa [getLast?_cons_cons])

theorem marksFirm_concat : MarksFirm (parts ++ [part]) ↔ MarksFirm parts ∧ (part = "!" → EndsFirm parts) := by
  rw [MarksFirm, isChain_append]
  simp only [isChain_singleton, head?_cons, Option.mem_some_iff, forall_eq', true_and]
  exact and_congr_right fun _ => ⟨fun h hmark last hlast => h last hlast hmark, fun h last hlast hmark => h hmark last hlast⟩

/-! ## Putting parts together -/

namespace Value

/-- The ways in which a part is put to a value. -/
theorem Joined.add_cases {P : Joined → Prop} (j : Joined) (part : String) (empty : part = "" → P j)
    (mark : ∀ (text : String) c, c = ',' ∨ c = '!' → P ⟨text.push c, true⟩)
    (word : part ≠ "" → P ⟨(if j.text.isEmpty || j.glued then j.text else j.text.push ' ') ++ part, false⟩) :
    P (j.add part) := by
  unfold Joined.add
  refine iteInduction (fun hempty => empty (String.isEmpty_iff.mp hempty)) (fun hempty => ?_)
  refine iteInduction (fun _ => mark _ _ (.inl rfl)) (fun _ => ?_)
  exact iteInduction (fun _ => mark _ _ (.inr rfl)) (fun _ => word (by simpa using hempty))

/-- A mark ends firmly. -/
theorem isFirm_push_mark (text : String) {c : Char} (hc : c = ',' ∨ c = '!') : IsFirm (text.push c) := by
  rcases hc with rfl | rfl <;> exact (isSolid_push text (by decide) (by decide)).firm

/-- Only marks are glued to what comes behind them. -/
theorem isFirm_of_glued (parts : List String) (h : (parts.foldl Joined.add ⟨"", false⟩).glued = true) :
    IsFirm (parts.foldl Joined.add ⟨"", false⟩).text := by
  induction parts using reverseRecOn with
  | nil => cases h
  | append_singleton parts part ih =>
    rw [foldl_append, foldl_cons, foldl_nil] at h ⊢
    generalize parts.foldl Joined.add ⟨"", false⟩ = j at ih h ⊢
    revert h
    refine Joined.add_cases (P := fun j => j.glued = true → IsFirm j.text) j part (fun _ => ih) ?_ ?_
    · exact fun text c hc _ => isFirm_push_mark text hc
    · exact fun _ h => absurd h Bool.false_ne_true

/-- **A value is firm** if its last part is. -/
theorem isFirm_joinParts (h : EndsFirm parts) : IsFirm (joinParts parts) := by
  rcases eq_nil_or_concat' parts with rfl | ⟨front, part, rfl⟩
  · exact isFirm_empty
  · obtain ⟨hne, hfirm⟩ := endsFirm_concat.mp h
    have hglued := isFirm_of_glued front
    rw [joinParts, foldl_append, foldl_cons, foldl_nil]
    generalize front.foldl Joined.add ⟨"", false⟩ = j at hglued
    refine Joined.add_cases (P := fun j => IsFirm j.text) j part (fun hempty => absurd hempty hne) ?_ (fun _ => ?_)
    · exact fun text c hc => isFirm_push_mark text hc
    · -- what stands in front of the last part is empty, or ends with a mark or a blank
      refine (isFirm_append ?_ part).mpr hfirm
      split
      · next hcond =>
        rw [Bool.or_eq_true] at hcond
        rcases hcond with hempty | hglue
        · rw [String.isEmpty_iff.mp hempty]
          exact isFirm_empty
        · exact hglued hglue
      · refine isFirm_of_getLast? (c := ' ') ?_ (by decide)
        rw [String.toList_push, getLast?_concat]

/-- A value whose last part is there is not empty. -/
theorem joinParts_ne_empty (h : EndsFirm parts) (hne : parts ≠ []) : joinParts parts ≠ "" := by
  obtain ⟨front, part, rfl⟩ := (eq_nil_or_concat' parts).resolve_left hne
  have hpart : part ≠ "" := (endsFirm_concat.mp h).1
  rw [joinParts, foldl_append, foldl_cons, foldl_nil]
  refine Joined.add_cases (P := fun j => j.text ≠ "") _ part (fun hempty => absurd hempty hpart) ?_ (fun _ hempty => ?_)
  · simp
  · exact hpart (String.append_eq_empty_iff.mp hempty).2

end Value

/-! ## The parts of a declaration -/

namespace Reader

/-- Colors, numbers and font formats that are put in order are firm. -/
theorem isFirm_tidyPart (o : Options) (property : String) (line : Nat) (h : part ≠ "" ∧ IsFirm part) :
    (State.tidyPart o property line part).1 ≠ "" ∧ IsFirm (State.tidyPart o property line part).1 := by
  rcases State.tidyPart_cases o property line part with hsame | ⟨-, hmeasure⟩ | hformat
  · rwa [hsame]
  · exact ⟨hmeasure.ne_empty, isFirm_of_notMem fun hmem => absurd (hmeasure.chars _ hmem) (by decide)⟩
  · have hlast := getLast?_of_quoteFormat? hformat
    refine ⟨?_, isFirm_of_getLast? hlast (by decide)⟩
    intro hempty
    rw [hempty] at hlast
    cases hlast

/-- What is left in front of the mark of importance ends with a firm part. -/
theorem endsFirm_cutImportant (hends : EndsFirm parts) (hmarks : MarksFirm parts) :
    EndsFirm (State.cutImportant parts).1 := by
  unfold State.cutImportant
  split
  · next word mark rest hreverse =>
    split
    · next hcut =>
      simp only [Bool.and_eq_true, beq_iff_eq] at hcut
      have hparts : parts = rest.reverse ++ ["!"] ++ [word] := by
        rw [← reverse_reverse parts, hreverse, ← hcut.1]
        simp
      rw [hparts, marksFirm_concat, marksFirm_concat] at hmarks
      exact hmarks.1.2 rfl
    · exact hends
  · exact hends

/-- **The text of a declaration is firm** if its last part is, and what stands in front of exclamation marks. -/
theorem isFirm_declared (o : Options) (property : String) (line : Nat) (hends : EndsFirm parts)
    (hmarks : MarksFirm parts) :
    IsFirm (Value.joinParts ((State.cutImportant parts).1.map fun part =>
      (State.tidyPart o property line part).1)) := by
  apply Value.isFirm_joinParts
  intro tidied htidied
  rw [getLast?_map] at htidied
  obtain ⟨part, hpart, rfl⟩ := Option.map_eq_some_iff.mp htidied
  exact isFirm_tidyPart o property line (endsFirm_cutImportant hends hmarks part hpart)

end Reader

end Stylesheet
