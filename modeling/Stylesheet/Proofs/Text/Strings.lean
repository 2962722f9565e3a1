import Stylesheet.Proofs.Text.Split
import Stylesheet.Proofs.Text.Trim

/-!
# Strings and parentheses

Between two quotes nothing is split, and behind the second one what was open before is open again (`whole_string`).

In a text without quotes and backslashes only parentheses can be open. If they are balanced, a text is split where all of
them are closed, so that its parts are balanced too, and so are its words (`balanced_of_mem_split`, `balanced_of_mem_words`).
-/

namespace Stylesheet.Text

open List

variable {s : List Char} {sep : Char}

/-- No quote and no backslash. -/
def Quoteless (s : String) : Prop := ∀ c ∈ s.toList, c ≠ '"' ∧ c ≠ '\'' ∧ c ≠ '\\'

instance (s : String) : Decidable (Quoteless s) :=
  decidableBAll (fun c => c ≠ '"' ∧ c ≠ '\'' ∧ c ≠ '\\') s.toList

/-! ## Behind a string nothing has changed -/

namespace Nesting

variable {n : Nesting}

/-- No string is open, and nothing is escaped. -/
def Level (n : Nesting) : Prop := n.escaped = false ∧ n.quote = none

theorem Level.after (h : n.Level) (hs : ∀ c ∈ s, c ≠ '"' ∧ c ≠ '\'' ∧ c ≠ '\\') : (n.after s).Level := by
  induction s generalizing n with
  | nil => exact h
  | cons c s ih =>
    obtain ⟨⟨hdouble, hsingle, hbackslash⟩, hs⟩ := forall_mem_cons.mp hs
    refine ih ?_ hs
    obtain ⟨escaped, quote, depth⟩ := n
    obtain ⟨rfl, rfl⟩ := h
    simp only [Level, next]
    grind

/-- What is open, with a string in it. -/
def inString (n : Nesting) : Nesting := { n with quote := some '"' }

theorem Level.next_quote (h : n.Level) : n.next '"' = n.inString := by
  obtain ⟨escaped, quote, depth⟩ := n
  obtain ⟨rfl, rfl⟩ := h
  rfl

theorem Level.inString_next_quote (h : n.Level) : n.inString.next '"' = n := by
  obtain ⟨escaped, quote, depth⟩ := n
  obtain ⟨rfl, rfl⟩ := h
  rfl

theorem Level.inString_next {c : Char} (h : n.Level) (hquote : c ≠ '"') (hbackslash : c ≠ '\\') :
    n.inString.next c = n.inString := by
  obtain ⟨escaped, quote, depth⟩ := n
  obtain ⟨rfl, rfl⟩ := h
  simp [next, inString, hquote, hbackslash]

end Nesting

/-- What a string says is not split. -/
theorem whole_inString (sep : Char) {n : Nesting} (h : n.Level) (hs : ∀ c ∈ s, c ≠ '"' ∧ c ≠ '\\') :
    Whole sep n.inString (s ++ ['"']) ∧ n.inString.after (s ++ ['"']) = n := by
  induction s with
  | nil =>
    rw [nil_append, whole_cons, Nesting.after_cons, h.inString_next_quote]
    exact ⟨⟨fun hsep => by simp [nests] at hsep, whole_nil⟩, rfl⟩
  | cons c s ih =>
    obtain ⟨⟨hquote, hbackslash⟩, hs⟩ := forall_mem_cons.mp hs
    rw [cons_append, whole_cons, Nesting.after_cons, h.inString_next hquote hbackslash]
    obtain ⟨hwhole, hafter⟩ := ih hs
    refine ⟨⟨fun hsep => ?_, hwhole⟩, hafter⟩
    exact Option.some_ne_none _ (congrArg Nesting.quote hsep.2.1)

/-- A string is not split, and what was open is open behind it. -/
theorem whole_string (sep : Char) {n : Nesting} (h : n.Level) (hs : ∀ c ∈ s, c ≠ '"' ∧ c ≠ '\\') :
    Whole sep n ('"' :: (s ++ ['"'])) ∧ n.after ('"' :: (s ++ ['"'])) = n := by
  rw [whole_cons, Nesting.after_cons, h.next_quote]
  obtain ⟨hwhole, hafter⟩ := whole_inString sep h hs
  exact ⟨⟨fun hsep => by simp [nests] at hsep, hwhole⟩, hafter⟩

/-! ## Parentheses -/

/-- How many parentheses are open behind one more character. None can be closed where none is open. -/
def openBehind? (depth : Nat) (c : Char) : Option Nat :=
  if c = '(' then some (depth + 1) else if c = ')' then if depth = 0 then none else some (depth - 1) else some depth

/-- How many parentheses are open behind a text, if none too many is closed in it. -/
def depthBehind? (depth : Nat) (s : List Char) : Option Nat := s.foldlM openBehind? depth

/-- As many parentheses are closed as are opened, and none before it is opened. -/
def Balanced (s : List Char) : Prop := depthBehind? 0 s = some 0

instance (s : List Char) : Decidable (Balanced s) := inferInstanceAs (Decidable (_ = _))

theorem balanced_nil : Balanced [] := rfl

theorem depthBehind?_append (depth : Nat) (s t : List Char) :
    depthBehind? depth (s ++ t) = (depthBehind? depth s).bind (depthBehind? · t) :=
  foldlM_append

theorem depthBehind?_cons (depth : Nat) (c : Char) (s : List Char) :
    depthBehind? depth (c :: s) = (openBehind? depth c).bind (depthBehind? · s) :=
  foldlM_cons

theorem Balanced.append {t : List Char} (hs : Balanced s) (ht : Balanced t) : Balanced (s ++ t) := by
  rw [Balanced, depthBehind?_append, hs]
  exact ht

theorem openBehind?_of_ne {c : Char} (hopen : c ≠ '(') (hclose : c ≠ ')') (depth : Nat) :
    openBehind? depth c = some depth := by
  rw [openBehind?, if_neg hopen, if_neg hclose]

/-- A text without parentheses leaves open what is open. -/
theorem depthBehind?_of_forall (h : ∀ c ∈ s, c ≠ '(' ∧ c ≠ ')') (depth : Nat) : depthBehind? depth s = some depth := by
  induction s with
  | nil => rfl
  | cons c s ih =>
    obtain ⟨⟨hopen, hclose⟩, hs⟩ := forall_mem_cons.mp h
    rw [depthBehind?_cons, openBehind?_of_ne hopen hclose]
    exact ih hs

/-- A blank in the place of another space character is no parenthesis either. -/
theorem depthBehind?_blanked (depth : Nat) (s : List Char) : depthBehind? depth (blanked s) = depthBehind? depth s := by
  induction s generalizing depth with
  | nil => rfl
  | cons c s ih =>
    have hcons : blanked (c :: s) = (if isSpace c then ' ' else c) :: blanked s := rfl
    have hsame : openBehind? depth (if isSpace c then ' ' else c) = openBehind? depth c := by
      split
      · next hspace =>
        obtain ⟨hnests, -⟩ := isInert_of_isSpace hspace
        rw [openBehind?_of_ne (by decide) (by decide), openBehind?_of_ne] <;> rintro rfl <;> simp [nests] at hnests
      · rfl
    rw [hcons, depthBehind?_cons, depthBehind?_cons, hsame]
    exact congrArg _ (funext ih)

/-- What is cut off at the ends of a text has no parentheses. -/
theorem balanced_trimBoth {p : Char → Bool} (hopen : p '(' = false) (hclose : p ')' = false) :
    Balanced (trimBoth p s) ↔ Balanced s := by
  obtain ⟨left, right, hsplit, hleft, hright⟩ := exists_trimBoth p s
  have hnone {t : List Char} (ht : ∀ c ∈ t, p c = true) : ∀ c ∈ t, c ≠ '(' ∧ c ≠ ')' := by
    intro c hc
    refine ⟨?_, ?_⟩ <;> rintro rfl
    · exact absurd ((ht _ hc).symm.trans hopen) (by decide)
    · exact absurd ((ht _ hc).symm.trans hclose) (by decide)
  have hright' (d : Nat) : depthBehind? d right = some d := depthBehind?_of_forall (hnone hright) d
  have hdepth : depthBehind? 0 s = depthBehind? 0 (trimBoth p s) := by
    conv_lhs => rw [hsplit]
    rw [depthBehind?_append, depthBehind?_append, depthBehind?_of_forall (hnone hleft)]
    simp [funext hright']
  rw [Balanced, Balanced, hdepth]

/-! ## Splitting a balanced text -/

/-- Without quotes and backslashes the scan counts the open parentheses. -/
theorem Nesting.Level.after_of_depthBehind? {n : Nesting} (h : n.Level)
    (hs : ∀ c ∈ s, c ≠ '"' ∧ c ≠ '\'' ∧ c ≠ '\\') {k : Nat} (hk : depthBehind? n.depth s = some k) :
    (n.after s).depth = k := by
  induction s generalizing n with
  | nil => exact Option.some.inj hk
  | cons c s ih =>
    obtain ⟨hc, hs⟩ := forall_mem_cons.mp hs
    have hnext : (n.next c).Level := Level.after h (s := [c]) (by simpa using hc)
    rw [depthBehind?_cons, Option.bind_eq_some_iff] at hk
    obtain ⟨d, hd, hk⟩ := hk
    have hdepth : (n.next c).depth = d := by
      obtain ⟨escaped, quote, depth⟩ := n
      obtain ⟨rfl, rfl⟩ := h
      obtain ⟨hdouble, hsingle, -⟩ := hc
      unfold openBehind? at hd
      grind [Nesting.next]
    exact ih hnext hs (hdepth ▸ hk)

/-- A balanced text that is cut where nothing is open. -/
theorem Balanced.cut {t : List Char} (hs : ∀ c ∈ s, c ≠ '"' ∧ c ≠ '\'' ∧ c ≠ '\\') (h : Balanced (s ++ t))
    (hcut : (Nesting.outside.after s).depth = 0) : Balanced s ∧ Balanced t := by
  rw [Balanced, depthBehind?_append, Option.bind_eq_some_iff] at h
  obtain ⟨k, hk, ht⟩ := h
  have hdepth : (Nesting.outside.after s).depth = k := Nesting.Level.after_of_depthBehind? ⟨rfl, rfl⟩ hs hk
  obtain rfl : k = 0 := hdepth.symm.trans hcut
  exact ⟨hk, ht⟩

theorem balanced_of_mem_parts (hsep : IsInert sep) {parts : List (List Char)}
    (hseparated : Separated sep .outside parts)
    (hs : ∀ part ∈ parts, ∀ c ∈ part, c ≠ '"' ∧ c ≠ '\'' ∧ c ≠ '\\') (h : Balanced ([sep].intercalate parts)) :
    ∀ part ∈ parts, Balanced part := by
  induction parts with
  | nil => simp
  | cons part parts ih =>
    obtain ⟨-, hclosed, hparts⟩ := hseparated
    obtain ⟨hpart, hrest⟩ := forall_mem_cons.mp hs
    cases parts with
    | nil => simpa using h
    | cons next parts =>
      rw [intercalate_cons_cons, append_assoc] at h
      obtain ⟨hfirst, hbehind⟩ := h.cut hpart (by rw [hclosed (cons_ne_nil _ _)]; rfl)
      have hopen : sep ≠ '(' := by rintro rfl; exact absurd hsep.1 (by decide)
      have hclose : sep ≠ ')' := by rintro rfl; exact absurd hsep.1 (by decide)
      rw [singleton_append, Balanced, depthBehind?_cons, openBehind?_of_ne hopen hclose] at hbehind
      exact forall_mem_cons.mpr ⟨hfirst, ih hparts hrest hbehind⟩

theorem balanced_of_mem_splitFrom (hsep : IsInert sep) (hs : ∀ c ∈ s, c ≠ '"' ∧ c ≠ '\'' ∧ c ≠ '\\') (h : Balanced s) :
    ∀ part ∈ splitFrom sep .outside s, Balanced part := by
  apply balanced_of_mem_parts hsep (separated_splitFrom hsep .outside s)
  · intro part hpart c hc
    have hsub := @sublist_intercalate _ sep _ hpart
    rw [intercalate_splitFrom hsep] at hsub
    exact hs c (hsub.subset hc)
  · rwa [intercalate_splitFrom hsep]

section Quoteless

variable {text part w : String} (hquoteless : Quoteless text)
include hquoteless

theorem Quoteless.of_mem_split (hsep : IsInert sep) (h : part ∈ split sep text) : Quoteless part := by
  have hsub := @sublist_intercalate _ sep _ (mem_splitFrom_of_mem_split h)
  rw [intercalate_splitFrom hsep] at hsub
  exact fun c hc => hquoteless c (hsub.subset hc)

theorem Quoteless.of_mem_words (h : w ∈ words text) : Quoteless w := by
  intro c hc
  rcases mem_of_mem_words h hc with rfl | hmem
  · decide
  · exact hquoteless c hmem

/-- **The parts of a balanced text** are balanced. -/
theorem balanced_of_mem_split (hbalanced : Balanced text.toList) (hsep : IsInert sep)
    (h : part ∈ split sep text) : Balanced part.toList :=
  balanced_of_mem_splitFrom hsep hquoteless hbalanced _ (mem_splitFrom_of_mem_split h)

/-- **The words of a balanced text** are balanced. -/
theorem balanced_of_mem_words (hbalanced : Balanced text.toList) (h : w ∈ words text) : Balanced w.toList := by
  have hblanked : ∀ c ∈ blanked text.toList, c ≠ '"' ∧ c ≠ '\'' ∧ c ≠ '\\' := by
    intro c hc
    obtain ⟨x, hx, rfl⟩ := mem_map.mp hc
    split
    · decide
    · exact hquoteless x hx
  rw [words_eq] at h
  obtain ⟨chars, hchars, rfl⟩ := mem_map.mp h
  rw [String.toList_ofList]
  refine balanced_of_mem_splitFrom isInert_blank hblanked ?_ chars (mem_of_mem_filter hchars)
  rwa [Balanced, depthBehind?_blanked]

end Quoteless

end Stylesheet.Text
