import Stylesheet.Text.Split
import Mathlib.Data.List.Basic

/-!
# What splitting finds

Splitting a text at a separator is undone by joining, and the other way round for parts that can stand side by side
(`Separated`): none of them has a free separator of its own, and each but the last is *closed*, so that the separator
behind it is free. What an unclosed part opens reaches over the separator into the next part.

The words of a text are such parts (`sideBySide_words`), and words that are joined again are found
again (`words_joinWith`).
-/

namespace Stylesheet.Text

open List
open String (ofList toList toList_ofList)

variable {c : Char} {s : List Char} {parts : List (List Char)} {text w : String} {ws : List String}

namespace Nesting

/-- What is known behind some more characters. -/
def after (n : Nesting) (s : List Char) : Nesting := s.foldl next n

@[simp] theorem after_nil (n : Nesting) : n.after [] = n := rfl

@[simp] theorem after_cons (n : Nesting) (c : Char) (s : List Char) : n.after (c :: s) = (n.next c).after s := rfl

@[simp] theorem after_append (n : Nesting) (s t : List Char) : n.after (s ++ t) = (n.after s).after t :=
  foldl_append

/-- A backslash escapes the next character, unless it is escaped itself. -/
theorem escaped_next (n : Nesting) (c : Char) : (n.next c).escaped = (c == '\\' && !n.escaped) := by
  obtain ⟨escaped, quote, depth⟩ := n
  cases quote with
  | some q => rfl
  | none =>
    simp only [next]
    grind

theorem free_iff {n : Nesting} : n.free = true ↔ n = outside := by
  obtain ⟨escaped, quote, depth⟩ := n
  simp [free, outside, and_assoc]

end Nesting

/-! ## Parts between separators -/

/-- A character that opens and closes nothing and escapes nothing. -/
def IsInert (c : Char) : Prop := nests c = false ∧ c ≠ '\\'

theorem isInert_blank : IsInert ' ' := ⟨rfl, by decide⟩

/-- Such a character ends an escape and does nothing else, unless it is taken for the open quote. -/
theorem Nesting.next_of_isInert {n : Nesting} (h : IsInert c) (hquote : n.quote ≠ some c) :
    n.next c = { n with escaped := false } := by
  obtain ⟨escaped, quote, depth⟩ := n
  obtain ⟨hnests, hbackslash⟩ := h
  simp only [nests, Bool.or_eq_false_iff, beq_eq_false_iff_ne] at hnests
  cases quote with
  | none => simp [Nesting.next, hnests, hbackslash]
  | some q =>
    have hq : c ≠ q := fun h => hquote (congrArg some h.symm)
    simp [Nesting.next, hbackslash, hq]

theorem IsInert.next_outside (h : IsInert c) : Nesting.outside.next c = .outside :=
  Nesting.next_of_isInert h nofun

variable {sep : Char} {n : Nesting}

theorem splitFrom_ne_nil (sep : Char) (n : Nesting) (s : List Char) : splitFrom sep n s ≠ [] := by
  cases s with
  | nil => simp [splitFrom]
  | cons c s =>
    rw [splitFrom]
    split
    · simp
    · split <;> simp

theorem splitFrom_of_free (h : c = sep ∧ n = .outside ∧ nests c = false) (s : List Char) :
    splitFrom sep n (c :: s) = [] :: splitFrom sep (n.next c) s := by
  obtain ⟨rfl, rfl, hnests⟩ := h
  rw [splitFrom, if_pos]
  simp [hnests, Nesting.free_iff.mpr]

theorem splitFrom_sep (hsep : IsInert sep) (s : List Char) :
    splitFrom sep .outside (sep :: s) = [] :: splitFrom sep .outside s := by
  rw [splitFrom_of_free ⟨rfl, rfl, hsep.1⟩, hsep.next_outside]

theorem splitFrom_cons (h : ¬(c = sep ∧ n = .outside ∧ nests c = false)) (s : List Char) :
    splitFrom sep n (c :: s) = (splitFrom sep (n.next c) s).modifyHead (c :: ·) := by
  have hcond : ¬(c == sep && n.free && !nests c) = true := by
    simpa [Nesting.free_iff, and_assoc] using h
  rw [splitFrom, if_neg hcond]
  cases hparts : splitFrom sep (n.next c) s with
  | nil => exact absurd hparts (splitFrom_ne_nil _ _ _)
  | cons part parts => rfl

/-- A text that is its own only part. -/
def Whole (sep : Char) (n : Nesting) (s : List Char) : Prop := splitFrom sep n s = [s]

theorem whole_nil : Whole sep n [] := rfl

theorem whole_cons : Whole sep n (c :: s) ↔ ¬(c = sep ∧ n = .outside ∧ nests c = false) ∧ Whole sep (n.next c) s := by
  unfold Whole
  by_cases h : c = sep ∧ n = .outside ∧ nests c = false
  · rw [splitFrom_of_free h]
    exact iff_of_false (by simp) fun hs => hs.1 h
  · rw [splitFrom_cons h]
    obtain ⟨part, parts, hparts⟩ := exists_cons_of_ne_nil (splitFrom_ne_nil sep (n.next c) s)
    simp [h, hparts]

theorem whole_append {t : List Char} : Whole sep n (s ++ t) ↔ Whole sep n s ∧ Whole sep (n.after s) t := by
  induction s generalizing n with
  | nil => exact (and_iff_right whole_nil).symm
  | cons c s ih => rw [cons_append, whole_cons, whole_cons, ih, Nesting.after_cons, and_assoc]

/-- What is put behind a text goes on with its last part. -/
theorem exists_splitFrom_append (sep : Char) (n : Nesting) (s : List Char) :
    ∃ front last, splitFrom sep n s = front ++ [last] ∧
      ∀ t, splitFrom sep n (s ++ t) = front ++ (splitFrom sep (n.after s) t).modifyHead (last ++ ·) := by
  induction s generalizing n with
  | nil =>
    refine ⟨[], [], rfl, fun t => ?_⟩
    cases hparts : splitFrom sep n t <;> simp [hparts]
  | cons c s ih =>
    obtain ⟨front, last, hs, happend⟩ := ih (n.next c)
    by_cases h : c = sep ∧ n = .outside ∧ nests c = false
    · refine ⟨[] :: front, last, ?_, fun t => ?_⟩
      · rw [splitFrom_of_free h, hs, cons_append]
      · rw [cons_append, splitFrom_of_free h, happend, Nesting.after_cons, cons_append]
    · -- the character goes into the first part, which may be the last one
      cases front with
      | nil =>
        refine ⟨[], c :: last, ?_, fun t => ?_⟩
        · rw [splitFrom_cons h, hs]
          rfl
        · rw [cons_append, splitFrom_cons h, happend, Nesting.after_cons]
          cases splitFrom sep ((n.next c).after s) t <;> rfl
      | cons first front =>
        refine ⟨(c :: first) :: front, last, ?_, fun t => ?_⟩
        · rw [splitFrom_cons h, hs]
          rfl
        · rw [cons_append, splitFrom_cons h, happend, Nesting.after_cons]
          rfl

/-- Behind a text without free separators the first part goes on. -/
theorem splitFrom_append (h : Whole sep n s) (t : List Char) :
    splitFrom sep n (s ++ t) = (splitFrom sep (n.after s) t).modifyHead (s ++ ·) := by
  obtain ⟨front, last, hs, happend⟩ := exists_splitFrom_append sep n s
  obtain ⟨rfl, rfl⟩ : front = [] ∧ last = s := by
    have hparts : [s] = front ++ [last] := h.symm.trans hs
    cases front <;> simp_all
  exact happend t

/-- Parts that stand side by side: none has a free separator, and each but the last is closed. -/
def Separated (sep : Char) : Nesting → List (List Char) → Prop
  | _, [] => True
  | n, part :: parts =>
    Whole sep n part ∧ (parts ≠ [] → n.after part = .outside) ∧ Separated sep .outside parts

theorem separated_outside_iff :
    Separated sep .outside parts ↔
      (∀ part ∈ parts, Whole sep .outside part) ∧ ∀ part ∈ parts.dropLast, Nesting.outside.after part = .outside := by
  induction parts with
  | nil => simp [Separated]
  | cons part parts ih =>
    rw [Separated, ih]
    cases parts with
    | nil => simp
    | cons next parts =>
      simp only [dropLast_cons_cons, forall_mem_cons, ne_eq, cons_ne_nil, not_false_eq_true, forall_const]
      tauto

theorem separated_splitFrom (hsep : IsInert sep) (n : Nesting) (s : List Char) :
    Separated sep n (splitFrom sep n s) := by
  induction s generalizing n with
  | nil => exact ⟨whole_nil, fun h => absurd rfl h, trivial⟩
  | cons c s ih =>
    by_cases h : c = sep ∧ n = .outside ∧ nests c = false
    · obtain ⟨rfl, rfl, -⟩ := h
      rw [splitFrom_sep hsep]
      exact ⟨whole_nil, fun _ => rfl, ih _⟩
    · rw [splitFrom_cons h]
      have hrest := ih (n.next c)
      cases hparts : splitFrom sep (n.next c) s with
      | nil => exact absurd hparts (splitFrom_ne_nil _ _ _)
      | cons part parts =>
        rw [hparts] at hrest
        exact ⟨whole_cons.mpr ⟨h, hrest.1⟩, hrest.2⟩

/-- **Joining undoes splitting.** -/
theorem intercalate_splitFrom (hsep : IsInert sep) (n : Nesting) (s : List Char) :
    [sep].intercalate (splitFrom sep n s) = s := by
  induction s generalizing n with
  | nil => rfl
  | cons c s ih =>
    by_cases h : c = sep ∧ n = .outside ∧ nests c = false
    · obtain ⟨rfl, rfl, -⟩ := h
      rw [splitFrom_sep hsep, intercalate_cons_of_ne_nil (splitFrom_ne_nil _ _ _), ih]
      rfl
    · have hrest := ih (n.next c)
      rw [splitFrom_cons h]
      cases hparts : splitFrom sep (n.next c) s with
      | nil => exact absurd hparts (splitFrom_ne_nil _ _ _)
      | cons part parts =>
        rw [hparts] at hrest
        cases parts with
        | nil => simpa using hrest
        | cons next parts => simpa [intercalate_cons_cons] using hrest

/-- **Splitting undoes joining,** for parts that can stand side by side. -/
theorem splitFrom_intercalate (hsep : IsInert sep) (hne : parts ≠ [])
    (h : Separated sep n parts) : splitFrom sep n ([sep].intercalate parts) = parts := by
  induction parts generalizing n with
  | nil => exact absurd rfl hne
  | cons part parts ih =>
    obtain ⟨hwhole, hclosed, hparts⟩ := h
    cases parts with
    | nil => rwa [intercalate_singleton]
    | cons next parts =>
      rw [intercalate_cons_cons, append_assoc, splitFrom_append hwhole, hclosed (cons_ne_nil _ _),
        singleton_append, splitFrom_sep hsep, ih (cons_ne_nil _ _) hparts]
      simp

theorem after_intercalate (hsep : IsInert sep)
    (h : Separated sep .outside parts) (hclosed : Nesting.outside.after ([sep].intercalate parts) = .outside) :
    ∀ part ∈ parts, Nesting.outside.after part = .outside := by
  induction parts with
  | nil => simp
  | cons part parts ih =>
    obtain ⟨-, hpart, hparts⟩ := h
    cases parts with
    | nil => simpa using hclosed
    | cons next parts =>
      have hfirst := hpart (cons_ne_nil _ _)
      rw [intercalate_cons_cons, Nesting.after_append, Nesting.after_append, hfirst, Nesting.after_cons,
        hsep.next_outside, Nesting.after_nil] at hclosed
      exact forall_mem_cons.mpr ⟨hfirst, ih hparts hclosed⟩

/-- Characters that open nothing and are not the separator make up one closed part. -/
theorem whole_of_isInert (h : ∀ c ∈ s, IsInert c ∧ c ≠ sep) :
    Whole sep .outside s ∧ Nesting.outside.after s = .outside := by
  induction s with
  | nil => exact ⟨whole_nil, rfl⟩
  | cons c s ih =>
    obtain ⟨⟨hinert, hne⟩, hs⟩ := forall_mem_cons.mp h
    obtain ⟨hwhole, hclosed⟩ := ih hs
    rw [whole_cons, Nesting.after_cons, hinert.next_outside]
    exact ⟨⟨fun hsep => hne hsep.1, hwhole⟩, hclosed⟩

theorem Separated.filter (h : Separated sep .outside parts) (p : List Char → Bool) :
    Separated sep .outside (parts.filter p) := by
  induction parts with
  | nil => trivial
  | cons part parts ih =>
    obtain ⟨hwhole, hclosed, hparts⟩ := h
    rw [filter_cons]
    split
    · refine ⟨hwhole, fun hne => hclosed ?_, ih hparts⟩
      rintro rfl
      exact hne rfl
    · exact ih hparts

theorem toList_joinWith (sep : String) (ws : List String) :
    (joinWith sep ws).toList = sep.toList.intercalate (ws.map toList) := by
  induction ws with
  | nil => rfl
  | cons w ws ih =>
    cases ws with
    | nil => simp [joinWith]
    | cons v ws => simp [joinWith, ih, intercalate_cons_cons]

/-- A text is its parts between the separators, put together again. -/
theorem joinWith_splitOn (sep : Char) (text : String) :
    joinWith (ofList [sep]) ((text.toList.splitOn sep).map ofList) = text := by
  have hparts : toList ∘ ofList = id := funext fun _ => toList_ofList
  apply String.toList_injective
  rw [toList_joinWith, toList_ofList, map_map, hparts, map_id, intercalate_splitOn]

theorem infix_intercalate {part : List Char} (h : part ∈ parts) : part <:+: [sep].intercalate parts := by
  induction parts with
  | nil => exact absurd h not_mem_nil
  | cons first parts ih =>
    cases parts with
    | nil => simp [mem_singleton.mp h]
    | cons next parts =>
      rw [intercalate_cons_cons, append_assoc]
      rcases mem_cons.mp h with rfl | hrest
      · exact infix_append_left
      · exact infix_append_of_infix_right (infix_append_of_infix_right (ih hrest))

theorem sublist_intercalate {part : List Char} (h : part ∈ parts) : part.Sublist ([sep].intercalate parts) :=
  (infix_intercalate h).sublist

theorem mem_intercalate (h : c ∈ [sep].intercalate parts) : c = sep ∨ ∃ part ∈ parts, c ∈ part := by
  induction parts with
  | nil => simp at h
  | cons first parts ih =>
    cases parts with
    | nil => exact .inr ⟨first, mem_singleton_self _, by simpa using h⟩
    | cons next parts =>
      rw [intercalate_cons_cons, append_assoc, mem_append, singleton_append, mem_cons] at h
      rcases h with hfirst | rfl | hrest
      · exact .inr ⟨first, mem_cons_self, hfirst⟩
      · exact .inl rfl
      · exact (ih hrest).imp_right fun ⟨part, hpart, hc⟩ => ⟨part, mem_cons_of_mem _ hpart, hc⟩

/-- A part of a text is a part of its characters. -/
theorem mem_splitFrom_of_mem_split {part : String} (h : part ∈ split sep text) :
    part.toList ∈ splitFrom sep .outside text.toList := by
  obtain ⟨chars, hchars, rfl⟩ := mem_map.mp h
  rw [toList_ofList]
  rw [splitChars] at hchars
  split at hchars
  · cases hchars
  · exact hchars

/-! ## Words -/

/-- A text that closes its quotes and parentheses and does not end in an escape. -/
def Closed (text : String) : Prop := Nesting.outside.after text.toList = .outside

instance (text : String) : Decidable (Closed text) := inferInstanceAs (Decidable (_ = _))

/-- The text with a blank for each space character. -/
def blanked (s : List Char) : List Char := s.map fun c => if isSpace c then ' ' else c

/-- The words of a text, cut out of its blanked characters. -/
theorem words_eq (text : String) :
    words text
      = ((splitFrom ' ' .outside (blanked text.toList)).filter (!·.isEmpty)).map ofList := by
  have hsplit : words text = ((splitChars ' ' (blanked text.toList)).map ofList).filter (!·.isEmpty) := by
    simp [words, split, blanked]
  have hempty : (fun part : String => !part.isEmpty) ∘ ofList = fun part => !part.isEmpty := by
    funext part
    cases part <;> simp
  rw [hsplit, filter_map, hempty, splitChars]
  split
  · next hnone =>
    rcases Bool.or_eq_true_iff.mp hnone with hnil | hblank
    · rw [isEmpty_iff.mp hnil]
      rfl
    · rw [beq_iff_eq.mp hblank]
      rfl
  · rfl

theorem blanked_eq_self_iff : blanked s = s ↔ ∀ c ∈ s, isSpace c = true → c = ' ' := by
  induction s with
  | nil => simp [blanked]
  | cons c s ih =>
    rw [forall_mem_cons, ← ih]
    have hcons : blanked (c :: s) = (if isSpace c then ' ' else c) :: blanked s := rfl
    rw [hcons, cons.injEq]
    refine and_congr_left fun _ => ?_
    by_cases hspace : isSpace c
    · simp [hspace, eq_comm]
    · simp [hspace]

theorem blanked_blanked (s : List Char) : blanked (blanked s) = blanked s := by
  rw [blanked_eq_self_iff]
  intro c hc hspace
  obtain ⟨x, -, rfl⟩ := mem_map.mp hc
  by_cases hx : isSpace x
  · simp [hx]
  · simp [hx] at hspace

/-- A word is a text that is not empty, whose only space characters are blanks, and none of them free. -/
theorem words_eq_singleton_iff :
    words w = [w] ↔ w ≠ "" ∧ blanked w.toList = w.toList ∧ Whole ' ' .outside w.toList := by
  rw [words_eq]
  constructor
  · intro h
    obtain ⟨part, hpart, rfl⟩ := map_eq_singleton_iff.mp h
    obtain ⟨hmem, hne⟩ := mem_filter.mp (hpart ▸ mem_singleton_self part)
    rw [toList_ofList] at hmem ⊢
    have hwhole := (separated_outside_iff.mp (separated_splitFrom isInert_blank _ _)).1 part hmem
    have hsub := @sublist_intercalate _ ' ' _ hmem
    rw [intercalate_splitFrom isInert_blank] at hsub
    refine ⟨?_, (hsub.eq_of_length (by simp [blanked])).symm, hwhole⟩
    simpa using hne
  · rintro ⟨hne, hblanked, hwhole⟩
    rw [hblanked, hwhole]
    simp [hne]

/-- Words that can stand side by side: each but the last is closed. -/
structure SideBySide (ws : List String) : Prop where
  word : ∀ w ∈ ws, words w = [w]
  closed : ∀ w ∈ ws.dropLast, Closed w

theorem sideBySide_of_closed (h : ∀ w ∈ ws, words w = [w] ∧ Closed w) : SideBySide ws :=
  ⟨fun w hw => (h w hw).1, fun w hw => (h w (dropLast_subset _ hw)).2⟩

theorem SideBySide.of_append {vs : List String} (h : SideBySide (ws ++ vs)) : SideBySide ws := by
  refine ⟨fun w hw => h.word w (mem_append_left _ hw), fun w hw => h.closed w ?_⟩
  cases vs with
  | nil => rwa [append_nil]
  | cons v vs =>
    rw [dropLast_append_cons]
    exact mem_append_left _ (dropLast_subset _ hw)

/-- The words of a text can stand side by side. -/
theorem sideBySide_words (text : String) : SideBySide (words text) := by
  have hparts := (separated_splitFrom isInert_blank .outside (blanked text.toList)).filter (!·.isEmpty)
  obtain ⟨hwhole, hclosed⟩ := separated_outside_iff.mp hparts
  rw [words_eq]
  constructor
  · intro w hw
    obtain ⟨part, hpart, rfl⟩ := mem_map.mp hw
    obtain ⟨hmem, hne⟩ := mem_filter.mp hpart
    have hsub := @sublist_intercalate _ ' ' _ hmem
    rw [intercalate_splitFrom isInert_blank] at hsub
    refine words_eq_singleton_iff.mpr ⟨by simpa using hne, ?_, ?_⟩
    · rw [toList_ofList, blanked_eq_self_iff]
      exact fun c hc => blanked_eq_self_iff.mp (blanked_blanked _) c (hsub.subset hc)
    · rw [toList_ofList]
      exact hwhole part hpart
  · intro w hw
    rw [← map_dropLast] at hw
    obtain ⟨part, hpart, rfl⟩ := mem_map.mp hw
    rw [Closed, toList_ofList]
    exact hclosed part hpart

theorem mem_of_mem_words (hw : w ∈ words text) (hc : c ∈ w.toList) : c = ' ' ∨ c ∈ text.toList := by
  rw [words_eq] at hw
  obtain ⟨part, hpart, rfl⟩ := mem_map.mp hw
  have hsub := @sublist_intercalate _ ' ' _ (mem_of_mem_filter hpart)
  rw [intercalate_splitFrom isInert_blank] at hsub
  rw [toList_ofList] at hc
  obtain ⟨x, hx, rfl⟩ := mem_map.mp (hsub.subset hc)
  split
  · exact .inl rfl
  · exact .inr hx

/-- **Joined words are found again,** if they can stand side by side. -/
theorem words_joinWith (h : SideBySide ws) : words (joinWith " " ws) = ws := by
  cases ws with
  | nil => rfl
  | cons w ws =>
    have hword := fun v hv => words_eq_singleton_iff.mp (h.word v hv)
    have hsep : " ".toList = [' '] := rfl
    have hseparated : Separated ' ' .outside ((w :: ws).map toList) := by
      rw [separated_outside_iff, ← map_dropLast]
      exact ⟨forall_mem_map.mpr fun v hv => (hword v hv).2.2, forall_mem_map.mpr h.closed⟩
    have hblanked : blanked ([' '].intercalate ((w :: ws).map toList))
        = [' '].intercalate ((w :: ws).map toList) := by
      rw [blanked_eq_self_iff]
      intro c hc hspace
      rcases mem_intercalate hc with rfl | ⟨part, hpart, hcpart⟩
      · rfl
      · obtain ⟨v, hv, rfl⟩ := mem_map.mp hpart
        exact blanked_eq_self_iff.mp (hword v hv).2.1 c hcpart hspace
    rw [words_eq, toList_joinWith, hsep, hblanked, splitFrom_intercalate isInert_blank (by simp) hseparated,
      filter_eq_self.mpr, map_map]
    · simp [Function.comp_def]
    · simpa using fun v hv => (hword v hv).1

/-! ## Words of a closed text -/

theorem isInert_of_isSpace (h : isSpace c = true) : IsInert c := by
  simp only [isSpace, Bool.or_eq_true, beq_iff_eq, or_assoc] at h
  rcases h with rfl | rfl | rfl | rfl | rfl <;> exact ⟨rfl, by decide⟩

/-- No quote that is open is a space character. -/
def Nesting.Proper (n : Nesting) : Prop := ∀ q, n.quote = some q → isSpace q = false

theorem Nesting.Proper.next (h : n.Proper) (c : Char) : (n.next c).Proper := by
  obtain ⟨escaped, quote, depth⟩ := n
  intro q hq
  cases quote with
  | some opened =>
    have hopened : isSpace opened = false := h opened rfl
    simp only [Nesting.next] at hq
    split at hq
    · exact absurd hq nofun
    · rwa [← Option.some.inj hq]
  | none =>
    have hopens : q = c ∧ (c = '"' ∨ c = '\'') := by
      simp only [Nesting.next] at hq
      grind
    obtain ⟨rfl, rfl | rfl⟩ := hopens <;> rfl

/-- A blank in the place of another space character opens and closes nothing either. -/
theorem Nesting.after_blanked (h : n.Proper) (s : List Char) : n.after (blanked s) = n.after s := by
  induction s generalizing n with
  | nil => rfl
  | cons c s ih =>
    have hplain {c : Char} (hc : isSpace c = true) : n.next c = { n with escaped := false } :=
      next_of_isInert (isInert_of_isSpace hc) fun hq => by simp [h c hq] at hc
    have hnext : n.next (if isSpace c then ' ' else c) = n.next c := by
      split
      · next hspace => rw [hplain hspace, hplain rfl]
      · rfl
    have hcons : blanked (c :: s) = (if isSpace c then ' ' else c) :: blanked s := rfl
    rw [hcons, Nesting.after_cons, Nesting.after_cons, hnext, ih (h.next c)]

/-- Every word of a closed text is closed. -/
theorem closed_of_mem_words (h : Closed text) (hw : w ∈ words text) : Closed w := by
  have hproper : Nesting.outside.Proper := fun q hq => by simp [Nesting.outside] at hq
  have hclosed : Nesting.outside.after (blanked text.toList) = .outside := (Nesting.after_blanked hproper _).trans h
  rw [← intercalate_splitFrom isInert_blank .outside (blanked text.toList)] at hclosed
  rw [words_eq] at hw
  obtain ⟨part, hpart, rfl⟩ := mem_map.mp hw
  rw [Closed, toList_ofList]
  exact after_intercalate isInert_blank (separated_splitFrom isInert_blank _ _) hclosed part
    (mem_filter.mp hpart).1

end Stylesheet.Text
