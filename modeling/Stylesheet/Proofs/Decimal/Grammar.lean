import Stylesheet.Decimal.Literal
import Mathlib.Computability.RegularExpressions
import Mathlib.Data.List.TakeWhile

/-!
# The grammar of numbers with units

Numbers and units are given by regular expressions (`numberGrammar`, `unitGrammar`), and a numeric text is a number
and a unit put together (`Numeric.Written`). The reader takes the longest number at the start of a text and refuses
whatever leaves something other than a unit. It misses no numeric text that way, and it finds the only way to cut one
up (`Numeric.ofText?_iff_written`): no character of a unit can go on with a number.

## Shape of a number

A text of the grammar is taken apart once, into a sign, the digits in front of the point and those behind it
(`Spelling`). Everything that is said about numbers later on is said about these parts.
-/

namespace Stylesheet.Decimal

open RegularExpression (char)
open List

variable {c : Char} {cs s t rest : List Char}

/-! ## Regular expressions -/

/-- One of the characters. -/
def oneOf (cs : List Char) : RegularExpression Char := (cs.map char).sum

/-- Once or more often in a row. -/
def oneOrMore (P : RegularExpression Char) : RegularExpression Char := P * P.star

/-- Once or not at all. -/
def maybe (P : RegularExpression Char) : RegularExpression Char := 1 + P

/-- The digits. -/
def digitChars : List Char := "0123456789".toList

/-- The basic letters. -/
def letterChars : List Char := "abcdefghijklmnopqrstuvwxyzABCDEFGHIJKLMNOPQRSTUVWXYZ".toList

/-- `[0-9]+` -/
def digitRun : RegularExpression Char := oneOrMore (oneOf digitChars)

/-- `-?([0-9]+([.][0-9]+)?|[.][0-9]+)` -/
def numberGrammar : RegularExpression Char :=
  maybe (char '-') * (digitRun * maybe (char '.' * digitRun) + char '.' * digitRun)

/-- `[a-zA-Z]+|%`, or nothing. -/
def unitGrammar : RegularExpression Char := maybe (oneOrMore (oneOf letterChars) + char '%')

/-- A text of the grammar of numbers. -/
def IsNumber (s : String) : Prop := s.toList ∈ numberGrammar.matches'

instance : DecidablePred IsNumber := fun s => inferInstanceAs (Decidable (s.toList ∈ numberGrammar.matches'))

/-! ### What they match -/

theorem mem_oneOf : t ∈ (oneOf cs).matches' ↔ ∃ c ∈ cs, t = [c] := by
  induction cs with
  | nil => simp [oneOf]
  | cons c cs ih =>
    have hsum : oneOf (c :: cs) = char c + oneOf cs := sum_cons
    have hchar : t ∈ (char c).matches' ↔ t = [c] := Iff.rfl
    rw [hsum, RegularExpression.matches'_add, Language.mem_add, ih, hchar]
    simp

theorem mem_star_oneOf : t ∈ (oneOf cs).star.matches' ↔ ∀ c ∈ t, c ∈ cs := by
  rw [RegularExpression.matches'_star, Language.mem_kstar]
  constructor
  · rintro ⟨parts, rfl, hparts⟩ c hc
    obtain ⟨part, hpart, hmem⟩ := mem_flatten.mp hc
    obtain ⟨d, hd, rfl⟩ := mem_oneOf.mp (hparts part hpart)
    rwa [mem_singleton.mp hmem]
  · intro h
    refine ⟨t.map fun c => [c], flatMap_singleton' t |>.symm, ?_⟩
    intro part hpart
    obtain ⟨c, hc, rfl⟩ := mem_map.mp hpart
    exact mem_oneOf.mpr ⟨c, h c hc, rfl⟩

theorem mem_oneOrMore_oneOf : t ∈ (oneOrMore (oneOf cs)).matches' ↔ t ≠ [] ∧ ∀ c ∈ t, c ∈ cs := by
  rw [oneOrMore, RegularExpression.matches'_mul, Language.mem_mul]
  constructor
  · rintro ⟨first, hfirst, others, hothers, rfl⟩
    obtain ⟨c, hc, rfl⟩ := mem_oneOf.mp hfirst
    refine ⟨by simp, ?_⟩
    simpa [hc] using mem_star_oneOf.mp hothers
  · rintro ⟨hne, hall⟩
    obtain ⟨c, others, rfl⟩ := exists_cons_of_ne_nil hne
    obtain ⟨hc, hothers⟩ := forall_mem_cons.mp hall
    exact ⟨[c], mem_oneOf.mpr ⟨c, hc, rfl⟩, others, mem_star_oneOf.mpr hothers, rfl⟩

theorem mem_maybe {P : RegularExpression Char} : t ∈ (maybe P).matches' ↔ t = [] ∨ t ∈ P.matches' := by
  rw [maybe, RegularExpression.matches'_add, Language.mem_add, RegularExpression.matches'_epsilon, Language.mem_one]

theorem mem_char_mul {P : RegularExpression Char} : t ∈ (char c * P).matches' ↔ ∃ r ∈ P.matches', t = c :: r := by
  rw [RegularExpression.matches'_mul, Language.mem_mul, RegularExpression.matches'_char]
  constructor
  · rintro ⟨_, rfl, r, hr, rfl⟩
    exact ⟨r, hr, rfl⟩
  · rintro ⟨r, hr, rfl⟩
    exact ⟨[c], rfl, r, hr, rfl⟩

/-- A class of characters is a list if they agree up to the last character of the class. -/
theorem mem_iff_of_le {p : Char → Bool} {n : Nat} (hcs : cs.all p = true) (hle : ∀ c, p c = true → c.toNat ≤ n)
    (hall : ∀ m ≤ n, p (Char.ofNat m) = true → Char.ofNat m ∈ cs) : c ∈ cs ↔ p c = true := by
  refine ⟨all_eq_true.mp hcs c, fun h => ?_⟩
  have hc := hall c.toNat (hle c h)
  rw [Char.ofNat_toNat] at hc
  exact hc h

theorem mem_digitChars : c ∈ digitChars ↔ c.isDigit = true := by
  refine mem_iff_of_le (n := 57) (by decide) (fun c h => ?_) (by decide)
  exact of_decide_eq_true (Bool.and_eq_true_iff.mp h).2

theorem mem_letterChars : c ∈ letterChars ↔ Text.isLetter c = true := by
  refine mem_iff_of_le (n := 122) (by decide) (fun c h => ?_) (by decide)
  rcases Bool.or_eq_true_iff.mp h with hupper | hlower
  · exact Nat.le_trans (of_decide_eq_true hupper).2 (by decide)
  · exact of_decide_eq_true (Bool.and_eq_true_iff.mp hlower).2

theorem mem_digitRun : t ∈ digitRun.matches' ↔ t ≠ [] ∧ ∀ c ∈ t, c.isDigit = true := by
  simp only [digitRun, mem_oneOrMore_oneOf, mem_digitChars]

/-! ## Numbers by their parts -/

/-- A minus sign, or none. -/
def signChars (negative : Bool) : List Char := if negative then ['-'] else []

/-- A point and the digits behind it. Without digits there is no point either. -/
def pointChars (fraction : List Char) : List Char := if fraction = [] then [] else '.' :: fraction

theorem pointChars_of_ne_nil (h : s ≠ []) : pointChars s = '.' :: s := if_neg h

/-- The parts of a number: its sign, and the digits in front of the point and behind it. Digits of one kind may be
missing. -/
@[ext]
structure Spelling where
  negative : Bool
  whole : List Char
  fraction : List Char
  isDigit_whole : ∀ c ∈ whole, c.isDigit = true
  isDigit_fraction : ∀ c ∈ fraction, c.isDigit = true
  ne_nil : whole ≠ [] ∨ fraction ≠ []

namespace Spelling

/-- The number as it is written. -/
def chars (n : Spelling) : List Char := signChars n.negative ++ (n.whole ++ pointChars n.fraction)

/-- The characters of a number. -/
theorem mem_chars {n : Spelling} (h : c ∈ n.chars) : c.isDigit = true ∨ c = '-' ∨ c = '.' := by
  have hsign : c ∈ signChars n.negative → c = '-' := by
    unfold signChars
    split <;> simp
  have hpoint : c ∈ pointChars n.fraction → c = '.' ∨ c ∈ n.fraction := by
    unfold pointChars
    split <;> simp
  rcases mem_append.mp h with h | h
  · exact .inr (.inl (hsign h))
  · rcases mem_append.mp h with h | h
    · exact .inl (n.isDigit_whole c h)
    · rcases hpoint h with h | h
      · exact .inr (.inr h)
      · exact .inl (n.isDigit_fraction c h)

/-- Behind the sign there is a digit or a point. -/
theorem exists_cons (n : Spelling) : ∃ c t, n.whole ++ pointChars n.fraction = c :: t ∧ c ≠ '-' := by
  cases hwhole : n.whole with
  | nil =>
    have hfraction : n.fraction ≠ [] := n.ne_nil.resolve_left fun h => h hwhole
    exact ⟨'.', n.fraction, pointChars_of_ne_nil hfraction, by decide⟩
  | cons c w =>
    refine ⟨c, w ++ pointChars n.fraction, rfl, ?_⟩
    rintro rfl
    have hdigit := n.isDigit_whole '-' (by simp [hwhole])
    exact absurd hdigit (by decide)

theorem chars_ne_nil (n : Spelling) : n.chars ≠ [] := by
  obtain ⟨c, t, hct, -⟩ := n.exists_cons
  simp [chars, hct]

theorem cutSign_chars (n : Spelling) (rest : List Char) :
    cutSign (n.chars ++ rest) = (signChars n.negative, n.whole ++ (pointChars n.fraction ++ rest)) := by
  unfold chars signChars
  cases n.negative with
  | true => simp [cutSign]
  | false =>
    obtain ⟨c, t, hct, hc⟩ := n.exists_cons
    rw [← append_assoc n.whole, hct]
    simp [cutSign, hc]

theorem chars_mem_numberGrammar (n : Spelling) : n.chars ∈ numberGrammar.matches' := by
  have hsign : signChars n.negative ∈ (maybe (char '-')).matches' := by
    rw [mem_maybe]
    cases n.negative with
    | true => exact .inr rfl
    | false => exact .inl rfl
  have hpoint (hne : n.fraction ≠ []) : pointChars n.fraction ∈ (char '.' * digitRun).matches' := by
    rw [pointChars_of_ne_nil hne, mem_char_mul]
    exact ⟨_, mem_digitRun.mpr ⟨hne, n.isDigit_fraction⟩, rfl⟩
  refine ⟨_, hsign, _, ?_, rfl⟩
  by_cases hwhole : n.whole = []
  · right
    rw [hwhole, nil_append]
    exact hpoint (n.ne_nil.resolve_left fun h => h hwhole)
  · left
    refine ⟨_, mem_digitRun.mpr ⟨hwhole, n.isDigit_whole⟩, _, mem_maybe.mpr ?_, rfl⟩
    by_cases hfraction : n.fraction = []
    · exact .inl (if_pos hfraction)
    · exact .inr (hpoint hfraction)

end Spelling

theorem exists_spelling_of_mem (h : s ∈ numberGrammar.matches') : ∃ n : Spelling, n.chars = s := by
  obtain ⟨sign, hsign, body, hbody, rfl⟩ := h
  obtain ⟨negative, rfl⟩ : ∃ negative : Bool, sign = signChars negative := by
    rcases mem_maybe.mp hsign with rfl | rfl
    · exact ⟨false, rfl⟩
    · exact ⟨true, rfl⟩
  rcases hbody with ⟨whole, hwhole, point, hpoint, rfl⟩ | hpoint
  · obtain ⟨hne, hdigits⟩ := mem_digitRun.mp hwhole
    rcases mem_maybe.mp hpoint with rfl | hpoint
    · exact ⟨⟨negative, whole, [], hdigits, nofun, .inl hne⟩, rfl⟩
    · obtain ⟨fraction, hfraction, rfl⟩ := mem_char_mul.mp hpoint
      obtain ⟨hne', hdigits'⟩ := mem_digitRun.mp hfraction
      refine ⟨⟨negative, whole, fraction, hdigits, hdigits', .inl hne⟩, ?_⟩
      rw [Spelling.chars, pointChars_of_ne_nil hne']
  · obtain ⟨fraction, hfraction, rfl⟩ := mem_char_mul.mp hpoint
    obtain ⟨hne, hdigits⟩ := mem_digitRun.mp hfraction
    refine ⟨⟨negative, [], fraction, nofun, hdigits, .inr hne⟩, ?_⟩
    rw [Spelling.chars, pointChars_of_ne_nil hne, nil_append]

/-- **The numbers of the grammar** have a sign or none, and digits in front of the point or behind it. -/
theorem mem_numberGrammar : s ∈ numberGrammar.matches' ↔ ∃ n : Spelling, n.chars = s := by
  refine ⟨exists_spelling_of_mem, ?_⟩
  rintro ⟨n, rfl⟩
  exact n.chars_mem_numberGrammar

/-! ## Reading -/

theorem cutSign_cases (s : List Char) :
    ∃ (negative : Bool) (body : List Char), cutSign s = (signChars negative, body) ∧ signChars negative ++ body = s := by
  unfold cutSign
  split
  · next t => exact ⟨true, t, rfl, rfl⟩
  · exact ⟨false, s, rfl, rfl⟩

/-- What is read is a number at the start of the text. -/
theorem exists_spelling_of_readNumber (h : readNumber s = some (t, rest)) :
    ∃ n : Spelling, n.chars = t ∧ t ++ rest = s := by
  obtain ⟨negative, body, hcut, rfl⟩ := cutSign_cases s
  have hdigits (u : List Char) : ∀ c ∈ u.takeWhile Char.isDigit, c.isDigit = true := fun c => mem_takeWhile_imp
  have hbody := takeWhile_append_dropWhile (p := Char.isDigit) (l := body)
  have hbare (hread : (if (body.takeWhile Char.isDigit).isEmpty = true then none else
      some (signChars negative ++ body.takeWhile Char.isDigit, body.dropWhile Char.isDigit)) = some (t, rest)) :
      ∃ n : Spelling, n.chars = t ∧ t ++ rest = signChars negative ++ body := by
    split at hread
    · cases hread
    · next hne =>
      cases hread
      refine ⟨⟨negative, _, [], hdigits body, nofun, .inl (by simpa using hne)⟩, ?_, ?_⟩
      · simp [Spelling.chars, pointChars]
      · rw [append_assoc, hbody]
  unfold readNumber at h
  simp only [hcut] at h
  split at h
  · next behind hrest =>
    split at h
    · exact hbare h
    · next hne =>
      cases h
      have hfraction : behind.takeWhile Char.isDigit ≠ [] := by simpa using hne
      refine ⟨⟨negative, _, _, hdigits body, hdigits behind, .inr hfraction⟩, ?_, ?_⟩
      · simp [Spelling.chars, pointChars, hfraction]
      · rw [hrest] at hbody
        rw [append_assoc, cons_append, takeWhile_append_dropWhile, append_assoc, hbody]
  · exact hbare h

/-- Wherever a number stands at the start of a text, it or a longer one is read. -/
theorem readNumber_chars_append (n : Spelling) (rest : List Char) :
    ∃ more behind, readNumber (n.chars ++ rest) = some (n.chars ++ more, behind) := by
  unfold readNumber
  simp only [n.cutSign_chars, takeWhile_append_of_pos n.isDigit_whole, dropWhile_append_of_pos n.isDigit_whole]
  by_cases hfraction : n.fraction = []
  · have hwhole : n.whole ≠ [] := n.ne_nil.resolve_right fun h => h hfraction
    have hchars : n.chars = signChars n.negative ++ n.whole := by simp [Spelling.chars, pointChars, hfraction]
    simp only [hfraction, pointChars, if_true, nil_append, hchars]
    split
    · split
      · simp [hwhole]
      · simp
    · simp [hwhole]
  · have hchars : n.chars = signChars n.negative ++ (n.whole ++ '.' :: n.fraction) := by
      rw [Spelling.chars, pointChars_of_ne_nil hfraction]
    simp [pointChars_of_ne_nil hfraction, hchars, takeWhile_append_of_pos n.isDigit_fraction, hfraction, Char.isDigit]

/-! ## Units -/

theorem mem_unitGrammar : s ∈ unitGrammar.matches' ↔ isUnitText s = true := by
  have hpercent : s ∈ (char '%').matches' ↔ s = ['%'] := Iff.rfl
  rw [unitGrammar, mem_maybe, RegularExpression.matches'_add, Language.mem_add, mem_oneOrMore_oneOf, hpercent]
  simp only [mem_letterChars, isUnitText, Bool.or_eq_true, beq_iff_eq, all_eq_true]
  constructor
  · rintro (rfl | ⟨-, hletters⟩ | rfl)
    · exact .inr nofun
    · exact .inr hletters
    · exact .inl rfl
  · rintro (rfl | hletters)
    · exact .inr (.inr rfl)
    · by_cases hnil : s = []
      · exact .inl hnil
      · exact .inr (.inl ⟨hnil, hletters⟩)

section

variable (hunit : s ∈ unitGrammar.matches')
include hunit

theorem isLetter_or_of_mem_unitGrammar (hc : c ∈ s) : Text.isLetter c = true ∨ c = '%' := by
  rw [mem_unitGrammar, isUnitText, Bool.or_eq_true, beq_iff_eq, all_eq_true] at hunit
  rcases hunit with rfl | hletters
  · exact .inr (mem_singleton.mp hc)
  · exact .inl (hletters c hc)

/-- The characters of a unit are not those of a number. -/
theorem not_of_mem_unitGrammar (hc : c ∈ s) : ¬(c.isDigit = true ∨ c = '-' ∨ c = '.') := by
  have hall : ('%' :: letterChars).all (fun d => !(d.isDigit || d == '-' || d == '.')) = true := by decide
  have hmem : c ∈ '%' :: letterChars := by
    rcases isLetter_or_of_mem_unitGrammar hunit hc with hletter | rfl
    · exact mem_cons_of_mem _ (mem_letterChars.mpr hletter)
    · exact mem_cons_self
  simpa [not_or, and_assoc] using all_eq_true.mp hall c hmem

theorem notMem_of_mem_unitGrammar {n : Spelling} (hc : c ∈ s) : c ∉ n.chars :=
  fun hnumber => not_of_mem_unitGrammar hunit hc (Spelling.mem_chars hnumber)

/-- No number reaches from the start of a numeric text into its unit. -/
theorem length_chars_le {n m : Spelling} (h : m.chars ++ rest = n.chars ++ s) : m.chars.length ≤ n.chars.length := by
  rcases append_eq_append_iff.mp h with ⟨more, hn, -⟩ | ⟨more, hm, hs⟩
  · simp [hn]
  · cases more with
    | nil => simp [hm]
    | cons c more =>
      have hc : c ∈ s := by simp [hs]
      exact absurd (by simp [hm]) (notMem_of_mem_unitGrammar (n := m) hunit hc)

/-! ## Numeric texts -/

end

/-- A number and a unit of the grammar make up the text. -/
structure Numeric.Written (n : Numeric) (s : String) : Prop where
  text : s = n.number ++ n.unit
  number : IsNumber n.number
  unit : n.unit.toList ∈ unitGrammar.matches'

theorem Numeric.written_of_ofText? {n : Numeric} {s : String} (h : ofText? s = some n) : n.Written s := by
  unfold ofText? at h
  split at h
  · next number unit hread =>
    obtain ⟨spelling, rfl, hs⟩ := exists_spelling_of_readNumber hread
    split at h
    · next hunit =>
      cases h
      refine ⟨?_, ?_, ?_⟩
      · rw [← String.ofList_append, hs, String.ofList_toList]
      · rw [IsNumber, String.toList_ofList]
        exact spelling.chars_mem_numberGrammar
      · rw [String.toList_ofList]
        exact mem_unitGrammar.mpr hunit
    · cases h
  · cases h

theorem Numeric.ofText?_of_written {n : Numeric} {s : String} (h : n.Written s) : ofText? s = some n := by
  obtain ⟨spelling, hnumber⟩ := mem_numberGrammar.mp h.number
  have hs : s.toList = spelling.chars ++ n.unit.toList := by rw [h.text, String.toList_append, hnumber]
  obtain ⟨more, behind, hread⟩ := readNumber_chars_append spelling n.unit.toList
  obtain ⟨longer, hlonger, happend⟩ := exists_spelling_of_readNumber hread
  -- a longer number would take a character of the unit
  have hmore : more = [] := by
    rw [← hlonger] at happend
    have hle := length_chars_le h.unit happend
    rw [hlonger, length_append] at hle
    exact length_eq_zero_iff.mp (by omega)
  have hbehind : behind = n.unit.toList := by
    rw [hmore, append_nil] at happend
    exact append_cancel_left happend
  rw [hmore, append_nil, hbehind] at hread
  unfold ofText?
  rw [hs, hread]
  simp only [mem_unitGrammar.mp h.unit, if_true, hnumber, String.ofList_toList]

theorem Numeric.ofText?_eq_some_iff {n : Numeric} {s : String} : ofText? s = some n ↔ n.Written s :=
  ⟨written_of_ofText?, ofText?_of_written⟩

/-! ## Tokens

Another way to tell numeric texts is to cut a text into tokens from left to right, each as long as it can be: a numeric
text is a number, and behind it one token of another kind or nothing. -/

/-- The kinds of tokens of a numeric text. -/
inductive TokenKind where
  | number
  | letters
  | percent
deriving DecidableEq, Repr

/-- What a token of a kind looks like. -/
def TokenKind.grammar : TokenKind → RegularExpression Char
  | .number => numberGrammar
  | .letters => oneOrMore (oneOf letterChars)
  | .percent => char '%'

/-- The text is the token at the start of it and the rest: no longer start of both is a token of any kind. -/
structure TokenKind.IsNext (kind : TokenKind) (text rest : List Char) : Prop where
  mem : text ∈ kind.grammar.matches'
  longest : ∀ (other : TokenKind) (t r : List Char),
    t ++ r = text ++ rest → t ∈ other.grammar.matches' → t.length ≤ text.length

/-- The text is cut into a number and a token of another kind, or nothing. -/
structure Numeric.Lexed (n : Numeric) (s : String) : Prop where
  text : s = n.number ++ n.unit
  number : TokenKind.number.IsNext n.number.toList n.unit.toList
  unit : n.unit = "" ∨ ∃ kind : TokenKind, kind ≠ .number ∧ kind.IsNext n.unit.toList []

theorem mem_unitGrammar_iff_token :
    s ∈ unitGrammar.matches' ↔ s = [] ∨ ∃ kind : TokenKind, kind ≠ .number ∧ s ∈ kind.grammar.matches' := by
  rw [unitGrammar, mem_maybe, RegularExpression.matches'_add, Language.mem_add]
  refine or_congr_right ⟨?_, ?_⟩
  · rintro (h | h)
    · exact ⟨.letters, by decide, h⟩
    · exact ⟨.percent, by decide, h⟩
  · rintro ⟨kind, hkind, h⟩
    cases kind with
    | number => exact absurd rfl hkind
    | letters => exact .inl h
    | percent => exact .inr h

theorem TokenKind.isNext_nil {kind : TokenKind} : kind.IsNext s [] ↔ s ∈ kind.grammar.matches' := by
  refine ⟨fun h => h.mem, fun h => ⟨h, fun _ t r htr _ => ?_⟩⟩
  rw [append_nil] at htr
  simp [← htr]

theorem TokenKind.isNext_number {n : Spelling} (hunit : s ∈ unitGrammar.matches') :
    TokenKind.number.IsNext n.chars s := by
  refine ⟨n.chars_mem_numberGrammar, fun other t r htr ht => ?_⟩
  by_cases hother : other = .number
  · subst hother
    obtain ⟨m, rfl⟩ := mem_numberGrammar.mp ht
    exact length_chars_le hunit htr
  · -- a token of another kind starts with a character of its own
    have htunit : t ∈ unitGrammar.matches' := mem_unitGrammar_iff_token.mpr (.inr ⟨other, hother, ht⟩)
    cases t with
    | nil => simp
    | cons c t =>
      have hc : c ∈ n.chars := by
        obtain ⟨d, u, hchars⟩ := exists_cons_of_ne_nil n.chars_ne_nil
        rw [hchars, cons_append, cons_append, cons.injEq] at htr
        rw [hchars, htr.1]
        exact mem_cons_self
      exact absurd hc (notMem_of_mem_unitGrammar htunit mem_cons_self)

theorem Numeric.lexed_iff {n : Numeric} {s : String} : n.Lexed s ↔ n.Written s := by
  have hunit : n.unit.toList ∈ unitGrammar.matches' ↔
      n.unit = "" ∨ ∃ kind : TokenKind, kind ≠ .number ∧ kind.IsNext n.unit.toList [] := by
    simp only [mem_unitGrammar_iff_token, TokenKind.isNext_nil, String.toList_eq_nil_iff]
  constructor
  · exact fun h => ⟨h.text, h.number.mem, hunit.mpr h.unit⟩
  · intro h
    obtain ⟨spelling, hnumber⟩ := mem_numberGrammar.mp h.number
    refine ⟨h.text, ?_, hunit.mp h.unit⟩
    rw [← hnumber]
    exact TokenKind.isNext_number h.unit

/-- **A text is read as a number and a unit** if and only if the two make it up and are of the grammar, and if and only
if they are what the text is cut into from left to right. There is one way to cut a text up at most, and a text that
cannot be cut up is refused. -/
theorem Numeric.ofText?_iff_written (s : String) :
    (∀ n : Numeric, ofText? s = some n ↔ n.Written s) ∧ (∀ n : Numeric, n.Lexed s ↔ n.Written s) ∧
      (∀ n m : Numeric, n.Written s → m.Written s → n = m) ∧
      (ofText? s = none ↔ ¬∃ n : Numeric, n.Written s) := by
  refine ⟨fun n => ofText?_eq_some_iff, fun n => lexed_iff, fun n m hn hm => ?_, ?_⟩
  · rw [← ofText?_eq_some_iff] at hn hm
    exact Option.some.inj (hn.symm.trans hm)
  · simp only [← ofText?_eq_some_iff, ← Option.isSome_iff_exists, Option.not_isSome_iff_eq_none]

example : Numeric.ofText? "-.50em" = some ⟨"-.50", "em"⟩ ∧ Numeric.ofText? "1.5.5" = none := by decide

end Stylesheet.Decimal
