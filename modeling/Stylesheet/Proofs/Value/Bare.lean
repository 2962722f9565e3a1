import Stylesheet.Value.Join
import Mathlib.Data.List.Induction
import Mathlib.Data.List.SplitBy

/-!
# Values without blanks

A value without blanks falls apart at its marks: each comma and each exclamation mark is a part of its own, and so is
each run of other characters between them (`bareParts`). Putting such parts together gives the value back, but for the
blank that an exclamation mark gets when it stands behind a run. So the parts of a value without blanks are the only
ones that it can be put together from, and only if no exclamation mark stands behind a run (`joinParts_eq_iff`).
-/

namespace Stylesheet.Value

open List
open String (join ofList toList toList_join toList_push)

variable {part text : String} {parts : List String}

/-- The characters that are parts of a value on their own. -/
def isMark (c : Char) : Bool := c == ',' || c == '!'

/-- The part is a comma or an exclamation mark. -/
def IsMark (part : String) : Prop := part = "," ∨ part = "!"

instance : DecidablePred IsMark := fun part => inferInstanceAs (Decidable (part = "," ∨ part = "!"))

/-- A part that holds no mark. -/
structure IsRun (part : String) : Prop where
  ne_empty : part ≠ ""
  chars : ∀ c ∈ part.toList, isMark c = false

/-- The parts of a value without blanks: its marks, and the runs between them. -/
def bareParts (text : String) : List String :=
  (text.toList.splitBy fun a b => !isMark a && !isMark b).map ofList

/-- Marks and runs, with marks between each two runs. -/
structure Alternate (parts : List String) : Prop where
  kinds : ∀ part ∈ parts, IsMark part ∨ IsRun part
  apart : parts.IsChain fun a b => IsMark a ∨ IsMark b

/-- No exclamation mark stands behind a run. -/
def Tight (parts : List String) : Prop := parts.IsChain fun a b => b = "!" → IsMark a

instance : DecidablePred Tight := fun parts => inferInstanceAs (Decidable (parts.IsChain _))

/-! ## Marks and runs -/

theorem IsMark.not_isRun (h : IsMark part) : ¬ IsRun part := by
  intro hrun
  rcases h with rfl | rfl
  · exact absurd (hrun.chars ',' (by decide)) (by decide)
  · exact absurd (hrun.chars '!' (by decide)) (by decide)

theorem isMark_ofList_singleton {c : Char} (h : isMark c = true) : IsMark (ofList [c]) := by
  simp only [isMark, Bool.or_eq_true, beq_iff_eq] at h
  rcases h with rfl | rfl
  · exact .inl rfl
  · exact .inr rfl

/-- A mark is one character. -/
theorem IsMark.exists_singleton (h : IsMark part) : ∃ c, part.toList = [c] ∧ isMark c = true := by
  rcases h with rfl | rfl
  · exact ⟨',', rfl, rfl⟩
  · exact ⟨'!', rfl, rfl⟩

/-- Behind a character that is no mark only others like it belong to its run. -/
theorem isMark_of_isChain {c : Char} {chars : List Char} (hc : isMark c = false)
    (h : (c :: chars).IsChain fun a b => (!isMark a && !isMark b) = true) : ∀ d ∈ c :: chars, isMark d = false := by
  induction chars generalizing c with
  | nil =>
    intro d hd
    rwa [mem_singleton.mp hd]
  | cons e chars ih =>
    rw [isChain_cons_cons] at h
    simp only [Bool.and_eq_true, Bool.not_eq_true'] at h
    obtain ⟨⟨-, he⟩, hchain⟩ := h
    intro d hd
    rcases mem_cons.mp hd with rfl | hd
    · exact hc
    · exact ih he (by simpa using hchain) d hd

/-! ## Taking a value apart -/

theorem join_bareParts (text : String) : join (bareParts text) = text := by
  apply String.toList_injective
  rw [toList_join, bareParts, flatMap_map]
  simp only [String.toList_ofList, flatMap_id']
  exact flatten_splitBy _ _

theorem infix_of_mem_bareParts (h : part ∈ bareParts text) : part.toList <:+: text.toList := by
  have hjoin := congrArg toList (join_bareParts text)
  rw [toList_join] at hjoin
  rw [← hjoin, flatMap_def]
  exact infix_of_mem_flatten (mem_map_of_mem h)

theorem alternate_bareParts (text : String) : Alternate (bareParts text) := by
  have hkind {chars : List Char} (hmem : chars ∈ text.toList.splitBy fun a b => !isMark a && !isMark b) :
      IsMark (ofList chars) ∨ IsRun (ofList chars) := by
    have hne := ne_nil_of_mem_splitBy hmem
    have hchain := isChain_of_mem_splitBy hmem
    obtain ⟨c, chars, rfl⟩ := exists_cons_of_ne_nil hne
    cases hc : isMark c with
    | true =>
      cases chars with
      | nil => exact .inl (isMark_ofList_singleton hc)
      | cons d chars =>
        rw [isChain_cons_cons, hc] at hchain
        exact absurd hchain.1 (by simp)
    | false => exact .inr ⟨by simp, by simpa using isMark_of_isChain hc hchain⟩
  refine ⟨?_, ?_⟩
  · intro part hpart
    obtain ⟨chars, hchars, rfl⟩ := mem_map.mp hpart
    exact hkind hchars
  · rw [bareParts, isChain_map]
    refine (isChain_getLast_head_splitBy _ _).imp_of_mem_imp ?_
    rintro a b ha hb ⟨hane, hbne, hr⟩
    rcases hkind ha with hmark | hruna
    · exact .inl hmark
    · rcases hkind hb with hmark | hrunb
      · exact .inr hmark
      · have hlast := hruna.chars (a.getLast hane) (by simp)
        have hhead := hrunb.chars (b.head hbne) (by simp)
        rw [hlast, hhead] at hr
        exact absurd hr (by decide)

theorem Alternate.toList_ne_nil (h : Alternate parts) (hpart : part ∈ parts) : part.toList ≠ [] := by
  rcases h.kinds part hpart with hmark | hrun
  · obtain ⟨c, hc, -⟩ := hmark.exists_singleton
    simp [hc]
  · simpa using hrun.ne_empty

/-- **Marks and runs are found again** in the value that they make up. -/
theorem bareParts_join (h : Alternate parts) : bareParts (join parts) = parts := by
  have hsplit : (parts.map toList).flatten.splitBy (fun a b => !isMark a && !isMark b)
      = parts.map toList := by
    apply splitBy_flatten
    · intro hnil
      obtain ⟨part, hpart, hempty⟩ := mem_map.mp hnil
      exact h.toList_ne_nil hpart hempty
    · intro chars hchars
      obtain ⟨part, hpart, rfl⟩ := mem_map.mp hchars
      rcases h.kinds part hpart with hmark | hrun
      · obtain ⟨c, hc, -⟩ := hmark.exists_singleton
        rw [hc]
        exact .singleton c
      · refine (pairwise_of_forall_mem_list fun a ha b hb => ?_).isChain
        rw [hrun.chars a ha, hrun.chars b hb]
        rfl
    · rw [isChain_map]
      refine h.apart.imp_of_mem_imp ?_
      intro a b ha hb hmark
      refine ⟨h.toList_ne_nil ha, h.toList_ne_nil hb, ?_⟩
      rcases hmark with hmark | hmark
      · obtain ⟨c, hc, hcmark⟩ := hmark.exists_singleton
        simp [hc, hcmark]
      · obtain ⟨c, hc, hcmark⟩ := hmark.exists_singleton
        simp [hc, hcmark]
  rw [bareParts, toList_join, flatMap_def, hsplit, map_map]
  simp

/-! ## Putting a value together -/

theorem Alternate.init (h : Alternate (parts ++ [part])) : Alternate parts :=
  ⟨fun p hp => h.kinds p (mem_append_left _ hp), (isChain_append.mp h.apart).1⟩

/-- A run is put behind a mark or first, so it gets no blank. -/
theorem add_run (h : IsRun part) {j : Joined} (hj : (j.text.isEmpty || j.glued) = true) :
    j.add part = ⟨j.text ++ part, false⟩ := by
  have hne : part.isEmpty = false := by simpa using h.ne_empty
  have hcomma : (part == ",") = false := beq_eq_false_iff_ne.mpr fun heq => IsMark.not_isRun (.inl heq) h
  have hmark : (part == "!") = false := beq_eq_false_iff_ne.mpr fun heq => IsMark.not_isRun (.inr heq) h
  simp only [Joined.add, hne, hcomma, hmark, hj, Bool.false_eq_true, if_false, if_true]

theorem add_exclamation (j : Joined) :
    j.add "!" = ⟨(if j.text.isEmpty || j.glued then j.text else j.text.push ' ').push '!', true⟩ := by
  simp [Joined.add]

/-- What marks and runs are put together to: they themselves if they are tight, and a text with a blank otherwise.
The next part is glued to nothing and to marks. -/
theorem foldl_add_alternate (h : Alternate parts) :
    (((parts.foldl Joined.add ⟨"", false⟩).text.isEmpty || (parts.foldl Joined.add ⟨"", false⟩).glued) = true ↔
        ∀ last ∈ parts.getLast?, IsMark last) ∧
      (Tight parts → (parts.foldl Joined.add ⟨"", false⟩).text = join parts) ∧
      (¬ Tight parts → ' ' ∈ (parts.foldl Joined.add ⟨"", false⟩).text.toList) := by
  induction parts using reverseRecOn with
  | nil => exact ⟨⟨fun _ => nofun, fun _ => rfl⟩, fun _ => rfl, fun h => absurd .nil h⟩
  | append_singleton parts part ih =>
    obtain ⟨hglued, htight, hloose⟩ := ih h.init
    have hjoin : join (parts ++ [part]) = join parts ++ part := by
      apply String.toList_injective
      simp [toList_join]
    have hTight : Tight (parts ++ [part]) ↔ Tight parts ∧ ∀ last ∈ parts.getLast?, part = "!" → IsMark last := by
      simp [Tight, isChain_append]
    have hbehind : ∀ last ∈ parts.getLast?, IsMark last ∨ IsMark part := by
      intro last hlast
      exact (isChain_append.mp h.apart).2.2 last hlast part rfl
    have hlast : (∀ last ∈ (some part), IsMark last) ↔ IsMark part := by simp
    rw [foldl_append, foldl_cons, foldl_nil, getLast?_concat, hjoin, hTight, hlast]
    generalize parts.foldl Joined.add ⟨"", false⟩ = j at hglued htight hloose ⊢
    rcases h.kinds part (by simp) with (rfl | rfl) | hrun
    · have hadd : j.add "," = ⟨j.text ++ ",", true⟩ := by simp [Joined.add, String.push_eq_append]
      rw [hadd]
      refine ⟨by simp [IsMark], fun htight' => by rw [htight htight'.1], fun hloose' => ?_⟩
      rw [String.toList_append]
      exact mem_append_left _ (hloose fun h => hloose' ⟨h, fun _ _ hne => absurd hne (by decide)⟩)
    · rw [add_exclamation]
      refine ⟨by simp [IsMark], fun htight' => ?_, fun hloose' => ?_⟩
      · rw [if_pos (hglued.mpr fun last hlast => htight'.2 last hlast rfl), htight htight'.1, String.push_eq_append]
        rfl
      · by_cases hmarks : ∀ last ∈ parts.getLast?, IsMark last
        · rw [if_pos (hglued.mpr hmarks), toList_push]
          exact mem_append_left _ (hloose fun h => hloose' ⟨h, fun last hlast _ => hmarks last hlast⟩)
        · rw [if_neg (mt hglued.mp hmarks), toList_push, toList_push]
          simp
    · have hmarks : ∀ last ∈ parts.getLast?, IsMark last :=
        fun last hlast => (hbehind last hlast).resolve_right fun hmark => hmark.not_isRun hrun
      have hnot : ¬ IsMark part := fun hmark => hmark.not_isRun hrun
      rw [add_run hrun (hglued.mpr hmarks)]
      refine ⟨by simp [hrun.ne_empty, hnot], fun htight' => by rw [htight htight'.1], fun hloose' => ?_⟩
      rw [String.toList_append]
      exact mem_append_left _ (hloose fun h => hloose' ⟨h, fun last hlast _ => hmarks last hlast⟩)

/-- **A value without blanks** is put together from its own parts only, and from them only if they are tight. -/
theorem joinParts_eq_iff (h : Alternate parts) (htext : ' ' ∉ text.toList) :
    joinParts parts = text ↔ Tight parts ∧ parts = bareParts text := by
  obtain ⟨-, htight, hloose⟩ := foldl_add_alternate h
  constructor
  · intro heq
    have hTight : Tight parts := by
      by_contra hnot
      exact htext (heq ▸ hloose hnot)
    refine ⟨hTight, ?_⟩
    rw [← heq, joinParts, htight hTight, bareParts_join h]
  · rintro ⟨hTight, rfl⟩
    rw [joinParts, htight hTight, join_bareParts]

/-- Changing runs to other runs keeps marks between them. -/
theorem Alternate.map (h : Alternate parts) {f : String → String}
    (hmark : ∀ part, IsMark part → f part = part) (hrun : ∀ part ∈ parts, IsRun part → IsRun (f part)) :
    Alternate (parts.map f) := by
  refine ⟨fun part hpart => ?_, ?_⟩
  · obtain ⟨part, hmem, rfl⟩ := mem_map.mp hpart
    rcases h.kinds part hmem with hpart | hpart
    · exact .inl ((hmark part hpart).symm ▸ hpart)
    · exact .inr (hrun part hmem hpart)
  · rw [isChain_map]
    refine h.apart.imp fun a b hab => hab.imp ?_ ?_
    · exact fun ha => (hmark a ha).symm ▸ ha
    · exact fun hb => (hmark b hb).symm ▸ hb

/-- **The parts of a value without blanks, changed one by one,** make up the value if and only if none was changed and
they are tight. -/
theorem joinParts_map_bareParts (htext : ' ' ∉ text.toList) {f : String → String}
    (hmark : ∀ part, IsMark part → f part = part) (hrun : ∀ part ∈ bareParts text, IsRun part → IsRun (f part)) :
    joinParts ((bareParts text).map f) = text ↔ Tight (bareParts text) ∧ ∀ part ∈ bareParts text, f part = part := by
  have hfixed : (bareParts text).map f = bareParts text ↔ ∀ part ∈ bareParts text, f part = part := by
    constructor
    · intro heq part hpart
      exact map_inj_left.mp (heq.trans (map_id _).symm) part hpart
    · exact fun h => (map_congr_left h).trans (map_id _)
  rw [joinParts_eq_iff ((alternate_bareParts text).map hmark hrun) htext, hfixed]
  constructor
  · rintro ⟨htight, hsame⟩
    rw [hfixed.mpr hsame] at htight
    exact ⟨htight, hsame⟩
  · rintro ⟨htight, hsame⟩
    rw [hfixed.mpr hsame]
    exact ⟨htight, hsame⟩

end Stylesheet.Value
