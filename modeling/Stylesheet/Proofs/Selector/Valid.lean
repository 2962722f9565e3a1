import Stylesheet.Selector.Valid
import Stylesheet.Proofs.Text.Trim
import Mathlib.Data.List.Chain

/-!
# Which selectors are well formed

The parts of an alternative are what stands between its combinators. A combinator is a pattern of three pieces, all of
which take white space, so what counts as one combinator is settled by the way patterns are matched: each match is the
leftmost one behind the match before it, and of the ways to match at a place the one with the longest runs is taken.
`Pattern.Splits` says what the parts of a text are then, and `splits_combinator_iff` that `parts` finds them.

By an induction over the matches, a part is missing where a combinator stands at an end of the text, or where two
combinators have nothing but white space between them (`nil_mem_iff_of_splits`). So well-formed selectors are known
without a look at their parts (`isValid_iff`).
-/

open List

namespace Stylesheet.Text

/-! ## Patterns -/

/-- A pattern of characters. -/
inductive Pattern where
  /-- One character of a class. -/
  | one (p : Char → Bool)
  /-- Any number of characters of a class, and the more the better. -/
  | many (p : Char → Bool)
  /-- One pattern behind the other. -/
  | seq (first second : Pattern)

/-- What is left behind each run of a class at the start of a text, the longest run first. -/
def behindRuns (p : Char → Bool) : List Char → List (List Char)
  | [] => [[]]
  | c :: s => if p c then behindRuns p s ++ [c :: s] else [c :: s]

theorem head?_behindRuns (p : Char → Bool) (s : List Char) : (behindRuns p s).head? = some (s.dropWhile p) := by
  induction s with
  | nil => rfl
  | cons c s ih =>
    rw [behindRuns]
    split
    · next hc => rw [head?_append, ih, Option.some_or, dropWhile_cons_of_pos hc]
    · next hc => rw [dropWhile_cons_of_neg hc, head?_cons]

namespace Pattern

/-- What is left of a text behind a match at its start, for all ways to match it, the preferred one first. -/
def rests : Pattern → List Char → List (List Char)
  | one _, [] => []
  | one p, c :: s => if p c then [s] else []
  | many p, s => behindRuns p s
  | seq first second, s => (first.rests s).flatMap second.rests

/-- What is left of a text behind the preferred match at its start. -/
def rest? (a : Pattern) (s : List Char) : Option (List Char) := (a.rests s).head?

/-- The parts of a text between the matches of a pattern, each of which is the leftmost one behind the one before. -/
inductive Splits (a : Pattern) : List Char → List (List Char) → Prop
  | last {s : List Char} (hnone : ∀ t, t <:+ s → a.rest? t = none) : Splits a s [s]
  | next {part t rest : List Char} {parts : List (List Char)}
      (hleftmost : ∀ u, u <:+ part → u ≠ [] → a.rest? (u ++ t) = none) (hmatch : a.rest? t = some rest)
      (hrest : Splits a rest parts) : Splits a (part ++ t) (part :: parts)

variable {a : Pattern} {s t part : List Char} {parts : List (List Char)}

/-- A character at which nothing matches goes into the first part. -/
theorem Splits.cons {c : Char} (hc : a.rest? (c :: s) = none) (h : a.Splits s (part :: parts)) :
    a.Splits (c :: s) ((c :: part) :: parts) := by
  cases h with
  | last hnone =>
    refine .last fun t ht => ?_
    rcases suffix_cons_iff.mp ht with rfl | ht
    · exact hc
    · exact hnone t ht
  | @next _ t _ _ hleftmost hmatch hrest =>
    show a.Splits ((c :: part) ++ t) ((c :: part) :: parts)
    refine .next (fun u hu hne => ?_) hmatch hrest
    rcases suffix_cons_iff.mp hu with rfl | hu
    · exact hc
    · exact hleftmost u hu hne

/-- No match stands in front of a leftmost one. -/
theorem length_le_of_leftmost {part' t' rest : List Char} (heq : part ++ t = part' ++ t')
    (hleftmost : ∀ u, u <:+ part → u ≠ [] → a.rest? (u ++ t) = none) (hmatch : a.rest? t' = some rest) :
    part.length ≤ part'.length := by
  rcases append_eq_append_iff.mp heq with ⟨u, rfl, -⟩ | ⟨u, rfl, rfl⟩
  · simp
  · have hu : u = [] := by
      by_contra hne
      rw [hleftmost u (suffix_append _ _) hne] at hmatch
      cases hmatch
    simp [hu]

/-- A text is split in one way only. -/
theorem Splits.unique {ps qs : List (List Char)} (h : a.Splits s ps) (h' : a.Splits s qs) : ps = qs := by
  induction h generalizing qs with
  | last hnone =>
    cases h' with
    | last => rfl
    | next _ hmatch _ => exact absurd hmatch (by rw [hnone _ (suffix_append _ _)]; nofun)
  | @next part t rest parts hleftmost hmatch _ ih =>
    generalize hs : part ++ t = s at h'
    cases h' with
    | last hnone => exact absurd hmatch (by rw [hnone _ (hs ▸ suffix_append _ _)]; nofun)
    | next hleftmost' hmatch' hrest' =>
      have hlength := Nat.le_antisymm (length_le_of_leftmost hs hleftmost hmatch')
        (length_le_of_leftmost hs.symm hleftmost' hmatch)
      obtain ⟨rfl, rfl⟩ := append_inj hs hlength
      obtain rfl := Option.some.inj (hmatch.symm.trans hmatch')
      rw [ih hrest']

end Pattern

end Stylesheet.Text

namespace Stylesheet.Selector

open Text

variable {c : Char} {s t : List Char}

/-! ## Combinators as matches -/

/-- White space, one character that is a combinator or white space, and white space again. -/
def combinator : Pattern := .seq (.many isBlank) (.seq (.one fun c => isCombinator c || isBlank c) (.many isBlank))

/-- The character can be part of a combinator. -/
def Combines (c : Char) : Prop := isCombinator c = true ∨ isBlank c = true

theorem combines_iff (h : isBlank c = false) : Combines c ↔ isCombinator c = true := by
  simp [Combines, h]

theorem rest?_combinator_cons_of_isBlank (h : isBlank c = true) (s : List Char) :
    combinator.rest? (c :: s) = (combinator.rest? s).or (some (s.dropWhile isBlank)) := by
  simp [Pattern.rest?, combinator, Pattern.rests, behindRuns, h, head?_behindRuns]

theorem rest?_combinator_cons_of_not_isBlank (h : isBlank c = false) (s : List Char) :
    combinator.rest? (c :: s) = if isCombinator c then some (s.dropWhile isBlank) else none := by
  by_cases hc : isCombinator c = true
  · simp [Pattern.rest?, combinator, Pattern.rests, behindRuns, h, hc, head?_behindRuns]
  · simp [Pattern.rest?, combinator, Pattern.rests, behindRuns, h, hc]

/-- A combinator starts wherever a character can be part of one. -/
theorem not_combines_of_rest?_eq_none (h : combinator.rest? s = none) : ∀ c ∈ s.head?, ¬ Combines c := by
  cases s with
  | nil => nofun
  | cons c s =>
    rintro _ ⟨⟩
    cases hblank : isBlank c with
    | true => simp [rest?_combinator_cons_of_isBlank hblank] at h
    | false => simpa [rest?_combinator_cons_of_not_isBlank hblank, Combines, hblank] using h

theorem dropWhile_of_rest?_eq_none (h : combinator.rest? s = none) : s.dropWhile isBlank = s := by
  cases s with
  | nil => rfl
  | cons c s =>
    have hc := not_combines_of_rest?_eq_none h c rfl
    exact dropWhile_cons_of_neg fun hblank => hc (.inr hblank)

theorem combinatorLength_cons_of_isBlank (h : isBlank c = true) (s : List Char) :
    combinatorLength (c :: s) = combinatorLength s + 1 := by
  simp only [combinatorLength, takeWhile_cons_of_pos h, length_cons, drop_succ_cons]
  cases s.drop (s.takeWhile isBlank).length with
  | nil => rfl
  | cons d rest =>
    dsimp only
    split <;> omega

theorem combinatorLength_cons_of_not_isBlank (h : isBlank c = false) (s : List Char) :
    combinatorLength (c :: s) = if isCombinator c then (s.takeWhile isBlank).length + 1 else 0 := by
  have hspace : (c :: s).takeWhile isBlank = [] := takeWhile_cons_of_neg (by simp [h])
  simp only [combinatorLength, hspace, length_nil, drop_zero, Nat.zero_add, Nat.add_comm]

/-- The preferred match takes as many characters as the combinator has. -/
theorem rest?_combinator (s : List Char) :
    combinator.rest? s = if combinatorLength s = 0 then none else some (s.drop (combinatorLength s)) := by
  induction s with
  | nil => rfl
  | cons c s ih =>
    cases hc : isBlank c with
    | true =>
      rw [rest?_combinator_cons_of_isBlank hc, combinatorLength_cons_of_isBlank hc, ih, if_neg (Nat.succ_ne_zero _),
        drop_succ_cons]
      split
      · -- white space alone: the last blank is taken for the character in the middle
        next hzero =>
        have hnone : combinator.rest? s = none := by rw [ih, if_pos hzero]
        rw [Option.none_or, dropWhile_of_rest?_eq_none hnone, hzero, drop_zero]
      · rfl
    | false =>
      rw [rest?_combinator_cons_of_not_isBlank hc, combinatorLength_cons_of_not_isBlank hc]
      split
      · rw [if_neg (Nat.succ_ne_zero _), drop_succ_cons, drop_length_takeWhile]
      · rfl

/-- The parts of a text are what stands between the leftmost matches. -/
theorem splits_parts (s : List Char) : combinator.Splits s (parts s) := by
  fun_induction parts s with
  | case1 => exact .last fun t ht => by rw [suffix_nil.mp ht]; rfl
  | case2 c rest hlength hnil ih =>
    rw [hnil] at ih
    cases ih
  | case3 c rest hlength part more hparts ih =>
    rw [hparts] at ih
    exact ih.cons (by rw [rest?_combinator, if_pos hlength])
  | case4 c rest n hlength ih =>
    show combinator.Splits ([] ++ c :: rest) ([] :: parts (rest.drop n))
    refine .next (fun u hu hne => absurd (suffix_nil.mp hu) hne) ?_ ih
    rw [rest?_combinator, hlength, if_neg (Nat.succ_ne_zero n), drop_succ_cons]

theorem splits_combinator_iff {ps : List (List Char)} : combinator.Splits s ps ↔ ps = parts s :=
  ⟨fun h => h.unique (splits_parts s), fun h => h ▸ splits_parts s⟩

/-! ## Combinators in a row -/

/-- Two combinators have nothing but white space between them. -/
def Doubled (s : List Char) : Prop :=
  ∃ left c space d right, s = left ++ c :: (space ++ d :: right) ∧ isCombinator c = true ∧ isCombinator d = true ∧
    ∀ x ∈ space, isBlank x = true

/-- The characters of a text other than white space. -/
def visible (s : List Char) : List Char := s.filter (!isBlank ·)

theorem visible_append (s t : List Char) : visible (s ++ t) = visible s ++ visible t := filter_append s t

theorem visible_eq_nil (h : ∀ c ∈ s, isBlank c = true) : visible s = [] :=
  filter_eq_nil_iff.mpr fun c hc => by simp [h c hc]

theorem visible_cons_of_isBlank (h : isBlank c = true) (s : List Char) : visible (c :: s) = visible s :=
  filter_cons_of_neg (by simp [h])

theorem visible_cons_of_not_isBlank (h : isBlank c = false) (s : List Char) : visible (c :: s) = c :: visible s :=
  filter_cons_of_pos (by simp [h])

theorem head?_visible (h : ∀ c ∈ s.head?, isBlank c = false) : (visible s).head? = s.head? := by
  cases s with
  | nil => rfl
  | cons c s => rw [visible_cons_of_not_isBlank (h c rfl), head?_cons, head?_cons]

theorem isBlank_of_isCombinator (h : isCombinator c = true) : isBlank c = false := by
  simp only [isCombinator, Bool.or_eq_true, beq_iff_eq, or_assoc] at h
  rcases h with rfl | rfl | rfl <;> decide

/-- Not both characters are combinators. -/
def Apart (c d : Char) : Prop := ¬ (isCombinator c = true ∧ isCombinator d = true)

/-- Two combinators are in a row if they are neighbours once white space is left out. -/
theorem doubled_iff : Doubled s ↔ ¬ (visible s).IsChain Apart := by
  rw [isChain_iff_forall_rel_of_append_cons_cons]
  constructor
  · rintro ⟨left, c, space, d, right, rfl, hc, hd, hspace⟩ hchain
    have hvisible : visible (left ++ c :: (space ++ d :: right)) = visible left ++ c :: d :: visible right := by
      rw [visible_append, visible_cons_of_not_isBlank (isBlank_of_isCombinator hc), visible_append,
        visible_eq_nil hspace, visible_cons_of_not_isBlank (isBlank_of_isCombinator hd), nil_append]
    exact hchain hvisible ⟨hc, hd⟩
  · intro hchain
    simp only [not_forall, Apart, not_not] at hchain
    obtain ⟨c, d, l₁, l₂, heq, hc, hd⟩ := hchain
    obtain ⟨left, right, rfl, -, hright⟩ := filter_eq_append_iff.mp heq
    obtain ⟨between, right, rfl, -, -, hright⟩ := filter_eq_cons_iff.mp hright
    obtain ⟨space, right, rfl, hspace, -, -⟩ := filter_eq_cons_iff.mp hright
    exact ⟨left ++ between, c, space, d, right, by simp, hc, hd, fun x hx => by simpa using hspace x hx⟩

instance : DecidableRel Apart := fun c d =>
  inferInstanceAs (Decidable ¬ (isCombinator c = true ∧ isCombinator d = true))

instance : DecidablePred Doubled := fun s => decidable_of_iff (¬ (visible s).IsChain Apart) doubled_iff.symm

theorem not_doubled_nil : ¬ Doubled [] := by simp [Doubled]

/-- A character that is no part of a combinator keeps those on its two sides apart. -/
theorem doubled_append_cons {q : Char} (hq : ¬ Combines q) : Doubled (s ++ q :: t) ↔ Doubled s ∨ Doubled t := by
  obtain ⟨hcombinator, hblank⟩ : isCombinator q = false ∧ isBlank q = false := by simpa [Combines] using hq
  have hleft (c : Char) : Apart c q := fun h => by simp [hcombinator] at h
  have hright (d : Char) : Apart q d := fun h => by simp [hcombinator] at h
  rw [doubled_iff, doubled_iff, doubled_iff, visible_append, visible_cons_of_not_isBlank hblank, isChain_append,
    isChain_cons]
  simp only [head?_cons, Option.mem_some_iff, forall_eq', hleft, hright, implies_true, true_and, and_true, not_and_or]

theorem doubled_append_of_not_combines (h : ∀ c ∈ s, ¬ Combines c) : Doubled (s ++ t) ↔ Doubled t := by
  induction s with
  | nil => rfl
  | cons c s ih =>
    obtain ⟨hc, hs⟩ := forall_mem_cons.mp h
    rw [← ih hs]
    exact (doubled_append_cons (s := []) hc).trans (or_iff_right not_doubled_nil)

/-! ## Missing parts -/

/-- A match, with what is left behind it: it takes all white space that it can, and one combinator if there is one. -/
structure Match (taken rest : List Char) : Prop where
  ne_nil : taken ≠ []
  combines : ∀ c ∈ taken, Combines c
  head : ∀ c ∈ rest.head?, isBlank c = false
  visible : (visible taken = [] ∧ ∀ c ∈ rest.head?, isCombinator c = false) ∨
    ∃ c, isCombinator c = true ∧ visible taken = [c]

theorem exists_match {rest : List Char} (h : combinator.rest? t = some rest) :
    ∃ taken, t = taken ++ rest ∧ Match taken rest := by
  induction t with
  | nil => cases h
  | cons c s ih =>
    cases hc : isBlank c with
    | true =>
      rw [rest?_combinator_cons_of_isBlank hc] at h
      cases hs : combinator.rest? s with
      | some r =>
        obtain rfl : r = rest := by simpa [hs] using h
        obtain ⟨taken, rfl, hmatch⟩ := ih hs
        refine ⟨c :: taken, rfl, cons_ne_nil _ _, forall_mem_cons.mpr ⟨.inr hc, hmatch.combines⟩, hmatch.head, ?_⟩
        rw [visible_cons_of_isBlank hc]
        exact hmatch.visible
      | none =>
        obtain rfl : s.dropWhile isBlank = rest := by simpa [hs] using h
        have hhead := not_combines_of_rest?_eq_none hs
        rw [dropWhile_of_rest?_eq_none hs]
        refine ⟨[c], rfl, cons_ne_nil _ _, by simpa using .inr hc, fun d hd => ?_, .inl ⟨?_, fun d hd => ?_⟩⟩
        · exact Bool.eq_false_iff.mpr fun hblank => hhead d hd (.inr hblank)
        · exact visible_eq_nil (by simpa using hc)
        · exact Bool.eq_false_iff.mpr fun hcombinator => hhead d hd (.inl hcombinator)
    | false =>
      rw [rest?_combinator_cons_of_not_isBlank hc] at h
      split at h
      · next hcombinator =>
        obtain rfl := Option.some.inj h
        have hspace : ∀ x ∈ s.takeWhile isBlank, isBlank x = true := fun x hx => mem_takeWhile_imp hx
        refine ⟨c :: s.takeWhile isBlank, by simp, cons_ne_nil _ _, ?_, head?_dropWhile_eq_false,
          .inr ⟨c, hcombinator, ?_⟩⟩
        · exact forall_mem_cons.mpr ⟨.inl hcombinator, fun x hx => .inr (hspace x hx)⟩
        · rw [visible_cons_of_not_isBlank hc, visible_eq_nil hspace]
      · cases h

/-- A combinator right behind a match makes two in a row. -/
theorem Match.doubled_iff {taken rest : List Char} (h : Match taken rest) :
    Doubled (taken ++ rest) ↔ (∃ c ∈ rest.head?, isCombinator c = true) ∨ Doubled rest := by
  rw [Selector.doubled_iff, Selector.doubled_iff, visible_append]
  rcases h.visible with ⟨hnone, hhead⟩ | ⟨c, hc, hone⟩
  · have hno : ¬ ∃ c ∈ rest.head?, isCombinator c = true := by
      rintro ⟨c, hmem, hc⟩
      exact absurd hc (by simp [hhead c hmem])
    rw [hnone, nil_append, or_iff_right hno]
  · rw [hone, singleton_append, isChain_cons, head?_visible h.head, not_and_or]
    simp [Apart, hc]

theorem not_combines_of_leftmost (h : ∀ u, u <:+ s → u ≠ [] → combinator.rest? (u ++ t) = none) :
    ∀ c ∈ s, ¬ Combines c := by
  intro c hc
  obtain ⟨left, right, rfl⟩ := append_of_mem hc
  exact not_combines_of_rest?_eq_none (h (c :: right) (suffix_append _ _) (cons_ne_nil _ _)) c rfl

/-- **Where a part is missing:** at an end of the text, or between two combinators in a row. -/
theorem nil_mem_iff_of_splits {ps : List (List Char)} (h : combinator.Splits s ps) :
    [] ∈ ps ↔ (∀ c ∈ s.head?, Combines c) ∨ (∃ c ∈ s.getLast?, Combines c) ∨ Doubled s := by
  induction h with
  | @last s hnone =>
    have hs := not_combines_of_leftmost (s := s) (t := []) fun u hu _ => by
      rw [append_nil]
      exact hnone u hu
    have hrow : ¬ Doubled s := by
      rw [← append_nil s, doubled_append_of_not_combines hs]
      exact not_doubled_nil
    cases s with
    | nil => simp
    | cons c s =>
      refine iff_of_false (by simp) ?_
      rintro (hhead | ⟨d, hlast, hd⟩ | hdoubled)
      · exact hs c mem_cons_self (hhead c rfl)
      · exact hs d (mem_of_getLast? hlast) hd
      · exact hrow hdoubled
  | @next part t rest parts hleftmost hmatch _ ih =>
    have hpart := not_combines_of_leftmost hleftmost
    obtain ⟨taken, rfl, htaken⟩ := exists_match hmatch
    cases part with
    | nil =>
      -- the text starts with a match
      obtain ⟨x, taken', rfl⟩ := exists_cons_of_ne_nil htaken.ne_nil
      simp [htaken.combines x mem_cons_self]
    | cons c part =>
      have hne : taken ++ rest ≠ [] := by simp [htaken.ne_nil]
      have hhead : ¬ ∀ x ∈ ((c :: part) ++ (taken ++ rest)).head?, Combines x := fun hall =>
        hpart c mem_cons_self (hall c rfl)
      rw [mem_cons, or_iff_right (by simp), ih, or_iff_right hhead, doubled_append_of_not_combines hpart,
        htaken.doubled_iff, getLast?_append_of_ne_nil _ hne]
      cases rest with
      | nil =>
        -- the text ends with a match
        obtain ⟨z, hz⟩ := Option.isSome_iff_exists.mp (getLast?_isSome.mpr htaken.ne_nil)
        refine iff_of_true (.inl nofun) (.inl ⟨z, ?_, htaken.combines z (mem_of_getLast? hz)⟩)
        rwa [append_nil]
      | cons d rest =>
        rw [getLast?_append_of_ne_nil _ (cons_ne_nil d rest)]
        simp only [head?_cons, Option.mem_some_iff, forall_eq', exists_eq_left', combines_iff (htaken.head d rfl)]
        exact or_left_comm

/-! ## Well-formed selectors -/

/-- Something is there, without a combinator at its ends or two of them in a row. -/
structure Complete (s : List Char) : Prop where
  ne_nil : s ≠ []
  head : ∀ c ∈ s.head?, isCombinator c = false
  last : ∀ c ∈ s.getLast?, isCombinator c = false
  apart : ¬ Doubled s

/-- A text without white space at its ends is complete if it misses no part. -/
theorem complete_iff_of_trimmed (h : Trimmed isBlank s) : Complete s ↔ s ≠ [] ∧ [] ∉ parts s := by
  rw [nil_mem_iff_of_splits (splits_parts s)]
  constructor
  · intro hs
    refine ⟨hs.ne_nil, ?_⟩
    rintro (hhead | ⟨d, hd, hlast⟩ | hrow)
    · obtain ⟨c, s, rfl⟩ := exists_cons_of_ne_nil hs.ne_nil
      exact absurd ((combines_iff (h.head c rfl)).mp (hhead c rfl)) (by simp [hs.head c rfl])
    · exact absurd ((combines_iff (h.last d hd)).mp hlast) (by simp [hs.last d hd])
    · exact hs.apart hrow
  · rintro ⟨hne, hnone⟩
    simp only [not_or, not_exists, not_and] at hnone
    obtain ⟨hhead, hlast, hrow⟩ := hnone
    refine ⟨hne, fun c hc => ?_, fun c hc => ?_, hrow⟩
    · refine Bool.eq_false_iff.mpr fun hcombinator => hhead fun d hd => ?_
      obtain rfl : c = d := Option.some.inj (hc.symm.trans hd)
      exact .inl hcombinator
    · exact Bool.eq_false_iff.mpr fun hcombinator => hlast c hc (.inl hcombinator)

theorem isValidAlternative_iff (s : String) : isValidAlternative s = true ↔ Complete (trimBoth isBlank s.toList) := by
  have hall (ps : List (List Char)) : ps.all (fun part => !part.isEmpty) = true ↔ [] ∉ ps := by
    simp only [all_eq_true, Bool.not_eq_true', isEmpty_eq_false_iff]
    exact ⟨fun h hnil => h [] hnil rfl, fun h part hpart hnil => h (hnil ▸ hpart)⟩
  rw [complete_iff_of_trimmed (trimmed_trimBoth _ _), isValidAlternative, Bool.and_eq_true, hall, Bool.not_eq_true',
    isEmpty_eq_false_iff]

/-- **Which selectors are well formed.** There are alternatives, and each of them, without the white space at its ends,
is not empty, neither starts nor ends with a combinator, and has no two combinators with nothing but white space between
them. The parts that this comes from are those between the leftmost matches of the pattern for combinators. -/
theorem isValid_iff (s : String) :
    (isValid s = true ↔
      split ',' s ≠ [] ∧ ∀ alternative ∈ split ',' s, Complete (trimBoth isBlank alternative.toList)) ∧
      ∀ text ps, combinator.Splits text ps ↔ ps = parts text := by
  refine ⟨?_, fun _ _ => splits_combinator_iff⟩
  simp only [isValid, Bool.and_eq_true, Bool.not_eq_true', List.isEmpty_eq_false_iff, List.all_eq_true,
    isValidAlternative_iff]

end Stylesheet.Selector
