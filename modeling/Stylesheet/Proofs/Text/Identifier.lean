import Stylesheet.Proofs.Text.Escape
import Mathlib.Data.List.Chain
import Mathlib.Tactic.Ring

/-!
# Identifiers with escapes

An identifier is written as a sequence of glyphs. A glyph is a character that stands for itself or an escape, and
denotes one code point; the code points of a text are found by the rule that an escape takes as many digits as it can,
up to six, and one space behind them (`codePoints`).

Reading rewrites each escape on its own, with a look at the character that was written behind it (`Glyph.rewrite`). That
character may be the backslash of another escape, of which only a letter or digit is left afterwards. So the code points
stay as they are if and only if no escape that stays and has room for another digit stands directly in front of an escape
that names a hexadecimal digit (`IsIdentifier.codePoints_rewriteAll_iff`).
-/

namespace Stylesheet.Text

open Escape (codeOf digitsOf digitValue maxDigits named takenLength writtenText)
open List

/-- A character that stands for itself in an identifier. -/
def isNameChar (c : Char) : Bool := c.isAlphanum || c == '-' || c == '_' || 128 ≤ c.toNat

/-- The blank that may end an escape. -/
def blank (space : Bool) : List Char := if space then [' '] else []

/-- One code point of an identifier, as it is written. -/
inductive Glyph where
  | plain (c : Char)
  /-- A backslash, digits, and perhaps a blank that ends them. -/
  | escape (digits : List Char) (space : Bool)
deriving DecidableEq, Repr

namespace Glyph

/-- The code point that a glyph denotes. -/
def code : Glyph → Nat
  | plain c => c.toNat
  | escape digits _ => codeOf digits

def write : Glyph → List Char
  | plain c => [c]
  | escape digits space => '\\' :: (digits ++ blank space)

/-- The letter or digit that an escape names, which is written in its place. -/
def named? : Glyph → Option Char
  | plain _ => none
  | escape digits _ => if (Char.ofNat (codeOf digits)).isAlphanum then some (Char.ofNat (codeOf digits)) else none

/-- What becomes of a glyph in front of a text. The blank behind an escape that stays is only kept where the digits would
run into the next character. -/
def rewrite : Glyph → List Char → List Char
  | plain c, _ => [c]
  | escape digits space, next =>
    match named? (escape digits space) with
    | some c => [c]
    | none => '\\' :: (digits ++ blank (space && next.head?.any Char.isHexDigit))

/-- A kept escape with room for one more digit, in front of an escape that names one. -/
def RunsInto (g h : Glyph) : Prop :=
  g.named? = none ∧ (∃ digits space, g = escape digits space ∧ digits.length < maxDigits) ∧
    h.named?.any Char.isHexDigit = true

end Glyph

/-- The glyphs of an identifier in writing. -/
def writeAll (glyphs : List Glyph) : List Char := glyphs.flatMap Glyph.write

/-- What becomes of the glyphs of an identifier, each in front of those that were written behind it. -/
def rewriteAll : List Glyph → List Char
  | [] => []
  | g :: glyphs => g.rewrite (writeAll glyphs) ++ rewriteAll glyphs

/-- The digits of an escape end where they are meant to: behind one to six digits comes a blank or something other than a
digit, unless there are six. -/
structure IsEscape (digits : List Char) (space : Bool) (next : List Char) : Prop where
  hex : ∀ d ∈ digits, d.isHexDigit = true
  ne_nil : digits ≠ []
  length_le : digits.length ≤ maxDigits
  ends : digits.length = maxDigits ∨ space = true ∨ next.head?.any Char.isHexDigit = false

/-- Glyphs that make up an identifier. The digits of an escape are the code of a character. -/
inductive IsIdentifier : List Glyph → Prop
  | nil : IsIdentifier []
  | plain {c : Char} {glyphs : List Glyph} (hc : isNameChar c = true) (h : IsIdentifier glyphs) :
      IsIdentifier (.plain c :: glyphs)
  | escape {digits : List Char} {space : Bool} {glyphs : List Glyph} (hescape : IsEscape digits space (writeAll glyphs))
      (hcode : codeOf digits ≠ 0) (hvalid : (codeOf digits).isValidChar) (h : IsIdentifier glyphs) :
      IsIdentifier (.escape digits space :: glyphs)

/-! ## Digits -/

section Digits

variable {digits more next : List Char} {space : Bool}

/-- The digits of an escape end at the sixth, or where no other comes next. -/
theorem digitsOf_append (hdigits : ∀ d ∈ digits, d.isHexDigit = true) (hlength : digits.length ≤ maxDigits)
    (hend : digits.length = maxDigits ∨ next.head?.any Char.isHexDigit = false) : digitsOf (digits ++ next) = digits := by
  rw [digitsOf, takeWhile_append_of_pos hdigits]
  rcases hend with hfull | hstop
  · rw [← hfull, take_left]
  · have hnone : next.takeWhile Char.isHexDigit = [] := by
      cases next with
      | nil => rfl
      | cons c next => exact takeWhile_cons_of_neg (by simpa using hstop)
    rw [hnone, append_nil, take_of_length_le hlength]

theorem IsEscape.digitsOf_eq (h : IsEscape digits space next) : digitsOf (digits ++ (blank space ++ next)) = digits := by
  refine digitsOf_append h.hex h.length_le (h.ends.imp_right fun hend => ?_)
  cases space with
  | false => exact hend.resolve_left (by decide)
  | true =>
    have hblank : Char.isHexDigit ' ' = false := by decide
    exact hblank

/-- An escape with room for another digit takes it. -/
theorem exists_digitsOf_append (hdigits : ∀ d ∈ digits, d.isHexDigit = true) (hlength : digits.length < maxDigits)
    (hnext : next.head?.any Char.isHexDigit = true) : ∃ more, more ≠ [] ∧ digitsOf (digits ++ next) = digits ++ more := by
  refine ⟨(next.takeWhile Char.isHexDigit).take (maxDigits - digits.length), ?_, ?_⟩
  · cases next with
    | nil => cases hnext
    | cons c rest =>
      obtain ⟨room, hroom⟩ : ∃ room, maxDigits - digits.length = room + 1 := ⟨maxDigits - digits.length - 1, by omega⟩
      rw [takeWhile_cons_of_pos (p := Char.isHexDigit) hnext, hroom, take_succ_cons]
      exact cons_ne_nil _ _
  · rw [digitsOf, takeWhile_append_of_pos hdigits, take_append, take_of_length_le hlength.le]

theorem codeOf_append (digits more : List Char) :
    codeOf (digits ++ more) = codeOf digits * 16 ^ more.length + codeOf more := by
  have hfrom : ∀ n, more.foldl (fun n c => n * 16 + digitValue c) n = n * 16 ^ more.length + codeOf more := by
    unfold codeOf
    induction more with
    | nil =>
      intro n
      simp
    | cons c more ih =>
      intro n
      rw [foldl_cons, foldl_cons, ih, ih (0 * 16 + digitValue c), length_cons, pow_succ]
      ring
  rw [codeOf, foldl_append, hfrom]
  rfl

/-- More digits denote another code. -/
theorem codeOf_append_ne (hcode : codeOf digits ≠ 0) (hmore : more ≠ []) : codeOf (digits ++ more) ≠ codeOf digits := by
  have hpow : 16 ≤ 16 ^ more.length := by
    have hpos : more.length ≠ 0 := fun hzero => hmore (eq_nil_of_length_eq_zero hzero)
    exact Nat.le_self_pow hpos 16
  have hgrows : codeOf digits * 16 ≤ codeOf digits * 16 ^ more.length := Nat.mul_le_mul_left _ hpow
  rw [codeOf_append]
  omega

end Digits

/-! ## Code points -/

/-- The text behind one space, if there is one. -/
def skipSpace (s : List Char) : List Char := if s.head?.any isSpace then s.drop 1 else s

theorem length_skipSpace_le (s : List Char) : (skipSpace s).length ≤ s.length := by
  unfold skipSpace
  split
  · rw [length_drop]
    omega
  · exact le_rfl

theorem skipSpace_blank {next : List Char} (space : Bool) (hnext : next.head?.any isSpace = false) :
    skipSpace (blank space ++ next) = next := by
  cases space with
  | false => simp [skipSpace, blank, hnext]
  | true =>
    have hblank : isSpace ' ' = true := by decide
    simp [skipSpace, blank, hblank]

/-- The code points that a text denotes. Behind a backslash the longest run of up to six digits is the code of a
character, and one space behind them belongs to the escape; any other character stands for itself. -/
def codePoints : List Char → List Nat
  | [] => []
  | c :: rest =>
    if c ≠ '\\' then c.toNat :: codePoints rest
    else if digitsOf rest = [] then (rest.head?.map Char.toNat).toList ++ codePoints (rest.drop 1)
    else codeOf (digitsOf rest) :: codePoints (skipSpace (rest.drop (digitsOf rest).length))
termination_by s => s.length
decreasing_by
  · exact Nat.lt_succ_self _
  · rw [length_drop, length_cons]
    omega
  · have hskip := length_skipSpace_le (rest.drop (digitsOf rest).length)
    rw [length_drop] at hskip
    rw [length_cons]
    omega

section CodePoints

variable {c : Char} {digits next rest : List Char} {space : Bool}

theorem codePoints_cons (hc : c ≠ '\\') (rest : List Char) : codePoints (c :: rest) = c.toNat :: codePoints rest := by
  rw [codePoints, if_pos hc]

theorem codePoints_backslash (hne : digitsOf rest ≠ []) :
    codePoints ('\\' :: rest) = codeOf (digitsOf rest) :: codePoints (skipSpace (rest.drop (digitsOf rest).length)) := by
  rw [codePoints, if_neg (by simp), if_neg hne]

/-- An escape in front of a text that does not start with space. -/
theorem IsEscape.codePoints_eq (h : IsEscape digits space next) (hnext : next.head?.any isSpace = false) :
    codePoints ('\\' :: (digits ++ blank space) ++ next) = codeOf digits :: codePoints next := by
  have hne : digitsOf (digits ++ (blank space ++ next)) ≠ [] := by
    rw [h.digitsOf_eq]
    exact h.ne_nil
  rw [cons_append, append_assoc, codePoints_backslash hne, h.digitsOf_eq, drop_left, skipSpace_blank space hnext]

end CodePoints

/-! ## Identifiers -/

section Identifiers

variable {glyphs : List Glyph} {g : Glyph} {digits : List Char} {space : Bool}

/-- A character of a class without space is no space. -/
theorem isSpace_eq_false {p : Char → Bool} {c : Char} (h : p c = true)
    (hp : ([' ', '\n', '\t', '\x0B', '\x0C'].any p) = false) : isSpace c = false := by
  have hne (d : Char) (hd : d ∈ [' ', '\n', '\t', '\x0B', '\x0C']) : c ≠ d := by
    rintro rfl
    exact any_eq_false.mp hp c hd h
  simp [isSpace, hne ' ' (by decide), hne '\n' (by decide), hne '\t' (by decide), hne '\x0B' (by decide),
    hne '\x0C' (by decide)]

theorem isSpace_of_isHexDigit {c : Char} (h : c.isHexDigit = true) : isSpace c = false :=
  isSpace_eq_false h (by decide)

theorem isSpace_of_isNameChar {c : Char} (h : isNameChar c = true) : isSpace c = false :=
  isSpace_eq_false h (by decide)

theorem ne_of_isNameChar {c d : Char} (h : isNameChar c = true) (hd : isNameChar d = false) : c ≠ d := by
  rintro rfl
  exact absurd (h.symm.trans hd) (by decide)

theorem isOrdinary_of_isNameChar {c : Char} (h : isNameChar c = true) : isOrdinary c = true := by
  have htokens : tokenChars.any isNameChar = false := by decide
  have htoken : isTokenChar c = false := by
    rw [isTokenChar, contains_eq_mem, decide_eq_false_iff_not]
    exact fun hmem => any_eq_false.mp htokens c hmem h
  rw [isOrdinary, htoken, isSpace_of_isNameChar h]
  rfl

/-- A letter or digit that an escape names stands for itself, and has the code of the escape. -/
theorem isNameChar_of_named? {c : Char} (hvalid : (codeOf digits).isValidChar)
    (h : (Glyph.escape digits space).named? = some c) : isNameChar c = true ∧ c.toNat = codeOf digits := by
  simp only [Glyph.named?, Option.ite_none_right_eq_some, Option.some.injEq] at h
  obtain ⟨halnum, rfl⟩ := h
  refine ⟨by simp [isNameChar, halnum], ?_⟩
  rw [Char.ofNat, dif_pos hvalid]
  rfl

theorem IsIdentifier.head_writeAll (h : IsIdentifier glyphs) : (writeAll glyphs).head?.any isSpace = false := by
  cases h with
  | nil => rfl
  | plain hc _ => exact isSpace_of_isNameChar hc
  | escape => rfl

theorem IsIdentifier.head_rewriteAll (h : IsIdentifier glyphs) : (rewriteAll glyphs).head?.any isSpace = false := by
  cases h with
  | nil => rfl
  | plain hc _ => exact isSpace_of_isNameChar hc
  | @escape digits space glyphs _ _ hvalid _ =>
    simp only [rewriteAll, Glyph.rewrite]
    cases hnamed : (Glyph.escape digits space).named? with
    | none => rfl
    | some c => exact isSpace_of_isNameChar (isNameChar_of_named? hvalid hnamed).1

/-- An identifier denotes the code points of its glyphs. -/
theorem IsIdentifier.codePoints_writeAll (h : IsIdentifier glyphs) :
    codePoints (writeAll glyphs) = glyphs.map Glyph.code := by
  induction h with
  | nil => rw [writeAll, flatMap_nil, codePoints, map_nil]
  | @plain c glyphs hc _ ih =>
    rw [map_cons, ← ih]
    exact codePoints_cons (ne_of_isNameChar hc (by decide)) _
  | @escape digits space glyphs hescape _ _ h ih =>
    rw [map_cons, ← ih]
    exact hescape.codePoints_eq h.head_writeAll

/-- An escape that stays and runs into nothing ends where it did: it keeps its blank, or no digit comes next. -/
theorem IsIdentifier.isEscape_rewriteAll (h : IsIdentifier glyphs) (hescape : IsEscape digits space (writeAll glyphs))
    (hnamed : (Glyph.escape digits space).named? = none)
    (hnot : ∀ next ∈ glyphs.head?, ¬ (Glyph.escape digits space).RunsInto next) :
    IsEscape digits (space && (writeAll glyphs).head?.any Char.isHexDigit) (rewriteAll glyphs) := by
  refine ⟨hescape.hex, hescape.ne_nil, hescape.length_le, ?_⟩
  by_cases hfull : digits.length = maxDigits
  · exact .inl hfull
  have hroom : digits.length < maxDigits := Nat.lt_of_le_of_ne hescape.length_le hfull
  have hends := hescape.ends.resolve_left hfull
  right
  cases h with
  | nil => exact .inr rfl
  | plain hc _ =>
    -- the character is the same in both texts
    rcases hends with rfl | hstop
    · rw [Bool.true_and]
      exact Bool.eq_false_or_eq_true _
    · exact .inr hstop
  | @escape digits' space' glyphs _ _ _ _ =>
    right
    cases hnamed' : (Glyph.escape digits' space').named? with
    | none =>
      simp only [rewriteAll, Glyph.rewrite, hnamed']
      rfl
    | some c =>
      have hc : c.isHexDigit ≠ true := by
        intro hhex
        refine hnot (.escape digits' space') rfl ⟨hnamed, ⟨digits, space, rfl, hroom⟩, ?_⟩
        rw [hnamed']
        exact hhex
      simp only [rewriteAll, Glyph.rewrite, hnamed']
      exact eq_false_of_ne_true hc

/-- A glyph that runs into nothing keeps its code point. -/
theorem IsIdentifier.codePoints_rewriteAll_cons (h : IsIdentifier (g :: glyphs))
    (hnot : ∀ next ∈ glyphs.head?, ¬ g.RunsInto next) :
    codePoints (rewriteAll (g :: glyphs)) = g.code :: codePoints (rewriteAll glyphs) := by
  cases h with
  | plain hc _ => exact codePoints_cons (ne_of_isNameChar hc (by decide)) _
  | @escape digits space _ hescape _ hvalid hglyphs =>
    cases hnamed : (Glyph.escape digits space).named? with
    | some c =>
      obtain ⟨hc, hcode⟩ := isNameChar_of_named? hvalid hnamed
      simp only [rewriteAll, Glyph.rewrite, hnamed]
      rw [Glyph.code, ← hcode]
      exact codePoints_cons (ne_of_isNameChar hc (by decide)) _
    | none =>
      simp only [rewriteAll, Glyph.rewrite, hnamed]
      exact (hglyphs.isEscape_rewriteAll hescape hnamed hnot).codePoints_eq hglyphs.head_rewriteAll

/-- A glyph that runs into the next one does not keep its code point. -/
theorem IsIdentifier.head_codePoints_ne {next : Glyph} (h : IsIdentifier (g :: next :: glyphs))
    (hruns : g.RunsInto next) : (codePoints (rewriteAll (g :: next :: glyphs))).head? ≠ some g.code := by
  obtain ⟨hnamed, ⟨digits, space, rfl, hroom⟩, hhex⟩ := hruns
  cases next with
  | plain c => cases hhex
  | escape digits' space' =>
    obtain ⟨c, hnamed', hc⟩ := (Option.any_eq_true _ _).mp hhex
    cases h with
    | escape hescape hcode _ _ =>
      -- the next glyph was written with a backslash, so no blank is kept in front of what is left of it
      have hwritten : (writeAll (.escape digits' space' :: glyphs)).head?.any Char.isHexDigit = false := rfl
      obtain ⟨rest, hrest⟩ : ∃ rest, rewriteAll (.escape digits' space' :: glyphs) = c :: rest := by
        simp only [rewriteAll, Glyph.rewrite, hnamed']
        exact ⟨_, rfl⟩
      have htext : rewriteAll (.escape digits space :: .escape digits' space' :: glyphs)
          = '\\' :: (digits ++ c :: rest) := by
        rw [rewriteAll, hrest, Glyph.rewrite, hnamed, hwritten]
        simp [blank]
      have hdigit : (c :: rest).head?.any Char.isHexDigit = true := hc
      obtain ⟨more, hmore, htaken⟩ := exists_digitsOf_append hescape.hex hroom hdigit
      have hnil : digitsOf (digits ++ c :: rest) ≠ [] := by
        rw [htaken]
        exact append_ne_nil_of_left_ne_nil hescape.ne_nil more
      rw [htext, codePoints_backslash hnil, htaken, head?_cons]
      exact fun heq => codeOf_append_ne hcode hmore (Option.some.inj heq)

/-- **Rewriting keeps the code points of an identifier** if and only if no escape runs into the next one. -/
theorem IsIdentifier.codePoints_rewriteAll_iff (h : IsIdentifier glyphs) :
    codePoints (rewriteAll glyphs) = codePoints (writeAll glyphs) ↔ glyphs.IsChain fun g next => ¬ g.RunsInto next := by
  rw [h.codePoints_writeAll]
  induction glyphs with
  | nil =>
    rw [rewriteAll, codePoints]
    exact iff_of_true rfl .nil
  | cons g glyphs ih =>
    have hglyphs : IsIdentifier glyphs := by cases h <;> assumption
    rw [isChain_cons, map_cons]
    constructor
    · intro heq
      have hnot : ∀ next ∈ glyphs.head?, ¬ g.RunsInto next := by
        intro next hnext hruns
        obtain ⟨rest, rfl⟩ := head?_eq_some_iff.mp hnext
        refine h.head_codePoints_ne hruns ?_
        rw [heq, head?_cons]
      rw [h.codePoints_rewriteAll_cons hnot] at heq
      exact ⟨hnot, (ih hglyphs).mp (cons.inj heq).2⟩
    · rintro ⟨hnot, hchain⟩
      rw [h.codePoints_rewriteAll_cons hnot, (ih hglyphs).mpr hchain]

end Identifiers

/-! ## Reading an escape -/

section Read

variable {digits next : List Char} {space : Bool}

theorem IsEscape.named_eq (h : IsEscape digits space next) :
    named (digits ++ (blank space ++ next)) = Char.ofNat (codeOf digits) := by
  rw [named, h.digitsOf_eq]

/-- A blank behind the digits is taken along, but for one that keeps a digit apart from an escape that stays. -/
theorem IsEscape.takenLength_eq (h : IsEscape digits space next) (hnext : next.head?.any isSpace = false) :
    takenLength (digits ++ (blank space ++ next)) = digits.length +
      (blank (space && !(next.head?.any Char.isHexDigit && (Glyph.escape digits space).named?.isNone))).length := by
  have hnamed : (Glyph.escape digits space).named?.isNone = !(Char.ofNat (codeOf digits)).isAlphanum := by
    rw [Glyph.named?]
    split
    · next halnum => rw [halnum]; rfl
    · next halnum => rw [eq_false_of_ne_true halnum]; rfl
  rw [takenLength, h.named_eq, h.digitsOf_eq, drop_left, hnamed]
  cases space with
  | false => simp [blank, hnext]
  | true =>
    have hblank : isSpace ' ' = true := by decide
    simp only [blank, if_true, singleton_append, head?_cons, Option.any_some, hblank, drop_succ_cons,
      drop_zero, Bool.true_and]
    split <;> rfl

/-- An escape is written as the character it names, or with its digits. -/
theorem IsEscape.text_read (h : IsEscape digits space next) (drop : Bool) :
    (Escape.read drop (digits ++ (blank space ++ next))).text.toList =
      ((Glyph.escape digits space).named?.map ([·])).getD ('\\' :: digits) := by
  have hwritten : (writtenText (digits ++ (blank space ++ next))).toList =
      ((Glyph.escape digits space).named?.map ([·])).getD ('\\' :: digits) := by
    have hempty : digits.isEmpty = false := by
      rw [isEmpty_eq_false_iff]
      exact h.ne_nil
    rw [writtenText, h.named_eq, h.digitsOf_eq, hempty, Glyph.named?]
    split
    · rw [String.toList_singleton]
      rfl
    · simp [String.toList_append]
  -- there is more to it than a backslash, so that is not dropped
  have hne : writtenText (digits ++ (blank space ++ next)) ≠ "\\" := by
    intro heq
    rw [heq, Glyph.named?] at hwritten
    split at hwritten
    · next halnum =>
      have hchar : '\\' = Char.ofNat (codeOf digits) := (cons.inj hwritten).1
      rw [← hchar] at halnum
      exact absurd halnum (by decide)
    · exact h.ne_nil (cons.inj hwritten).2.symm
  rw [Escape.read_eq, if_neg (by simp [hne])]
  exact hwritten

end Read

end Stylesheet.Text
