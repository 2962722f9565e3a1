import Stylesheet.Proofs.Decimal.Grammar
import Stylesheet.Value.Number
import Mathlib.Data.List.DropRight
import Mathlib.Data.Nat.Digits.Defs
import Mathlib.Algebra.Order.Field.Rat
import Mathlib.Tactic.Linarith
import Mathlib.Tactic.Positivity

/-!
# One spelling for each number

A number of the grammar denotes a rational number (`rational`), and many of them denote the same. The compressed spelling
is the same for all of those and for no other, and none of them is shorter (`compress_is_canonical`).

The argument is that of decimal expansions. Digits behind the point add up to less than one, so the digits in front of it
are those of the whole part, and each digit behind it is that of a whole part again once the number is multiplied by ten.
Zeros in front and at the end are the only freedom left.
-/

namespace Stylesheet.Decimal

open Value (digitsValue)
open List

variable {c : Char} {s t : List Char}

/-! ## What a number denotes -/

/-- What a digit stands for. -/
def digitValue (c : Char) : ℕ := c.toNat - '0'.toNat

/-- What digits behind the point stand for. -/
def fractionValue : List Char → ℚ
  | [] => 0
  | c :: s => (digitValue c + fractionValue s) / 10

/-- What the number without a sign at the start of a text stands for. -/
def magnitude (s : List Char) : ℚ :=
  digitsValue (s.takeWhile Char.isDigit) +
    match s.dropWhile Char.isDigit with
    | '.' :: t => fractionValue (t.takeWhile Char.isDigit)
    | _ => 0

/-- The rational number that the number at the start of a text denotes. What follows it is not looked at. -/
def rational (s : String) : ℚ :=
  match s.toList with
  | '-' :: t => -magnitude t
  | t => magnitude t

/-- What a sign stands for. -/
def signValue (negative : Bool) : ℚ := if negative then -1 else 1

/-- What a number stands for by its parts. -/
def Spelling.value (n : Spelling) : ℚ := signValue n.negative * (digitsValue n.whole + fractionValue n.fraction)

theorem digitValue_lt (h : c.isDigit = true) : digitValue c < 10 := by
  have hall : digitChars.all (fun d => digitValue d < 10) = true := by decide
  simpa using all_eq_true.mp hall c (mem_digitChars.mpr h)

theorem digitChar_digitValue (h : c.isDigit = true) : Nat.digitChar (digitValue c) = c := by
  have hall : digitChars.all (fun d => Nat.digitChar (digitValue d) == d) = true := by decide
  simpa using all_eq_true.mp hall c (mem_digitChars.mpr h)

theorem digitValue_inj {d : Char} (hc : c.isDigit = true) (hd : d.isDigit = true) (h : digitValue c = digitValue d) :
    c = d := by
  rw [← digitChar_digitValue hc, ← digitChar_digitValue hd, h]

/-! ## Digits in front of the point -/

theorem digitsValue_concat (s : List Char) (c : Char) : digitsValue (s ++ [c]) = digitsValue s * 10 + digitValue c := by
  simp [digitsValue, digitValue]

theorem digitsValue_eq_ofDigits (s : List Char) : digitsValue s = Nat.ofDigits 10 (s.reverse.map digitValue) := by
  induction s using reverseRecOn with
  | nil => rfl
  | append_singleton s c ih =>
    rw [digitsValue_concat, reverse_append, reverse_singleton, singleton_append, map_cons, Nat.ofDigits_cons, ← ih]
    omega

theorem digitsValue_dropWhile (s : List Char) : digitsValue (s.dropWhile (· == '0')) = digitsValue s := by
  induction s with
  | nil => rfl
  | cons c s ih =>
    by_cases hc : c = '0'
    · subst hc
      rw [dropWhile_cons_of_pos (by simp), ih]
      rfl
    · rw [dropWhile_cons_of_neg (by simpa using hc)]

/-- Without zeros in front the digits are those of the number. -/
theorem digits_digitsValue (hs : ∀ c ∈ s, c.isDigit = true) (hhead : s.head? ≠ some '0') :
    Nat.digits 10 (digitsValue s) = (s.map digitValue).reverse := by
  rw [digitsValue_eq_ofDigits, map_reverse]
  apply Nat.digits_ofDigits 10 (by decide)
  · intro d hd
    obtain ⟨c, hc, rfl⟩ := mem_map.mp (mem_reverse.mp hd)
    exact digitValue_lt (hs c hc)
  · cases s with
    | nil => exact fun hne => absurd rfl hne
    | cons c s =>
      intro hne hzero
      have hc : digitValue c = 0 := by simpa using hzero
      exact hhead (congrArg some (digitValue_inj (hs c mem_cons_self) rfl hc))

theorem eq_of_digitsValue_eq (hs : ∀ c ∈ s, c.isDigit = true) (ht : ∀ c ∈ t, c.isDigit = true)
    (hshead : s.head? ≠ some '0') (hthead : t.head? ≠ some '0') (h : digitsValue s = digitsValue t) : s = t := by
  have hback {u : List Char} (hu : ∀ c ∈ u, c.isDigit = true) : (u.map digitValue).map Nat.digitChar = u := by
    rw [map_map]
    exact (map_congr_left fun c hc => digitChar_digitValue (hu c hc)).trans (map_id u)
  have hdigits : s.map digitValue = t.map digitValue := by
    rw [← reverse_inj, ← digits_digitsValue hs hshead, ← digits_digitsValue ht hthead, h]
  rw [← hback hs, ← hback ht, hdigits]

/-! ## Digits behind the point -/

theorem fractionValue_nonneg (s : List Char) : 0 ≤ fractionValue s := by
  induction s with
  | nil => exact le_rfl
  | cons c s ih =>
    rw [fractionValue]
    positivity

theorem fractionValue_lt_one (hs : ∀ c ∈ s, c.isDigit = true) : fractionValue s < 1 := by
  induction s with
  | nil => exact one_pos
  | cons c s ih =>
    obtain ⟨hc, hs⟩ := forall_mem_cons.mp hs
    have hdigit : (digitValue c : ℚ) ≤ 9 := by exact_mod_cast Nat.le_of_lt_succ (digitValue_lt hc)
    have hrest := ih hs
    rw [fractionValue]
    linarith

/-- A number splits in one way only into a whole number and less than one. -/
theorem eq_of_add_eq_add {a b : ℕ} {x y : ℚ} (hx : 0 ≤ x) (hx' : x < 1) (hy : 0 ≤ y) (hy' : y < 1)
    (h : a + x = b + y) : a = b ∧ x = y := by
  have hab : a = b := by
    have h1 : (a : ℚ) < b + 1 := by linarith
    have h2 : (b : ℚ) < a + 1 := by linarith
    norm_cast at h1 h2
    omega
  subst hab
  exact ⟨rfl, by linarith⟩

theorem getLast?_tail (h : (c :: s).getLast? ≠ some '0') : s.getLast? ≠ some '0' := by
  cases s with
  | nil => simp
  | cons d s => simpa using h

theorem fractionValue_pos (hs : ∀ c ∈ s, c.isDigit = true) (hne : s ≠ []) (hlast : s.getLast? ≠ some '0') :
    0 < fractionValue s := by
  induction s with
  | nil => exact absurd rfl hne
  | cons c s ih =>
    obtain ⟨hc, hdigits⟩ := forall_mem_cons.mp hs
    have hnonneg := fractionValue_nonneg s
    rw [fractionValue]
    by_cases hnil : s = []
    · have hdigit : digitValue c ≠ 0 := by
        intro hzero
        subst hnil
        exact hlast (congrArg some (digitValue_inj hc rfl hzero))
      positivity
    · have hpos := ih hdigits hnil (getLast?_tail hlast)
      positivity

/-- Without zeros at the end the digits behind the point are told by what they stand for. -/
theorem eq_of_fractionValue_eq (hs : ∀ c ∈ s, c.isDigit = true) (ht : ∀ c ∈ t, c.isDigit = true)
    (hslast : s.getLast? ≠ some '0') (htlast : t.getLast? ≠ some '0') (h : fractionValue s = fractionValue t) :
    s = t := by
  induction s generalizing t with
  | nil =>
    by_contra hne
    exact absurd h (ne_of_lt (fractionValue_pos ht (fun hnil => hne hnil.symm) htlast))
  | cons c s ih =>
    cases t with
    | nil => exact absurd h (ne_of_gt (fractionValue_pos hs (cons_ne_nil c s) hslast))
    | cons d t =>
      obtain ⟨hc, hs⟩ := forall_mem_cons.mp hs
      obtain ⟨hd, ht⟩ := forall_mem_cons.mp ht
      have hsum : (digitValue c : ℚ) + fractionValue s = digitValue d + fractionValue t := by
        simp only [fractionValue] at h
        linarith
      obtain ⟨hdigit, hrest⟩ := eq_of_add_eq_add (fractionValue_nonneg s) (fractionValue_lt_one hs)
        (fractionValue_nonneg t) (fractionValue_lt_one ht) hsum
      rw [digitValue_inj hc hd hdigit, ih hs ht (getLast?_tail hslast) (getLast?_tail htlast) hrest]

theorem fractionValue_concat_zero (s : List Char) : fractionValue (s ++ ['0']) = fractionValue s := by
  induction s with
  | nil => simp [fractionValue, digitValue]
  | cons c s ih => rw [cons_append, fractionValue, fractionValue, ih]

theorem dropLastZeros_eq (s : List Char) : dropLastZeros s = s.rdropWhile (· == '0') := rfl

theorem fractionValue_dropLastZeros (s : List Char) : fractionValue (dropLastZeros s) = fractionValue s := by
  rw [dropLastZeros_eq]
  induction s using reverseRecOn with
  | nil => rfl
  | append_singleton s c ih =>
    by_cases hc : c = '0'
    · subst hc
      rw [rdropWhile_concat_pos _ _ _ (by simp), ih, fractionValue_concat_zero]
    · rw [rdropWhile_concat_neg _ _ _ (by simpa using hc)]

/-! ## Signs -/

theorem signValue_ne_zero (negative : Bool) : signValue negative ≠ 0 := by cases negative <;> norm_num [signValue]

/-- Two numbers under a sign are equal if the signs are and the magnitudes are, unless they are zero. -/
theorem eq_of_signValue_mul_eq {p q : Bool} {x y : ℚ} (hx : 0 ≤ x) (hy : 0 ≤ y) (hne : signValue p * x ≠ 0)
    (h : signValue p * x = signValue q * y) : p = q ∧ x = y := by
  have hpos : 0 < x := lt_of_le_of_ne hx fun hzero => hne (by rw [← hzero, mul_zero])
  cases p <;> cases q <;> simp only [signValue] at h
  · exact ⟨rfl, by simpa using h⟩
  · norm_num at h
    linarith
  · norm_num at h
    linarith
  · exact ⟨rfl, by simpa using h⟩

/-! ## The compressed spelling by its parts -/

namespace Spelling

variable (n m : Spelling)

/-- The digits in front of the point without zeros in front. -/
def shortWhole : List Char := n.whole.dropWhile (· == '0')

/-- The digits behind the point without zeros at the end. -/
def shortFraction : List Char := dropLastZeros n.fraction

theorem isDigit_shortWhole : ∀ c ∈ n.shortWhole, c.isDigit = true :=
  fun c hc => n.isDigit_whole c ((dropWhile_suffix _).subset hc)

theorem isDigit_shortFraction : ∀ c ∈ n.shortFraction, c.isDigit = true :=
  fun c hc => n.isDigit_fraction c ((List.rdropWhile_prefix _ _).subset hc)

theorem head?_shortWhole : n.shortWhole.head? ≠ some '0' := by
  intro h
  have hnot := head?_dropWhile_not (· == '0') n.whole
  rw [← shortWhole, h] at hnot
  exact absurd hnot (by decide)

theorem getLast?_shortFraction : n.shortFraction.getLast? ≠ some '0' := by
  intro h
  have hne : n.shortFraction ≠ [] := by
    intro hnil
    simp [hnil] at h
  rw [getLast?_eq_some_getLast hne, Option.some.injEq] at h
  exact rdropWhile_last_not (· == '0') n.fraction hne (beq_iff_eq.mpr h)

theorem value_eq : n.value = signValue n.negative * (digitsValue n.shortWhole + fractionValue n.shortFraction) := by
  rw [shortWhole, shortFraction, digitsValue_dropWhile, fractionValue_dropLastZeros, value]

theorem magnitude_nonneg : (0 : ℚ) ≤ digitsValue n.shortWhole + fractionValue n.shortFraction :=
  add_nonneg (Nat.cast_nonneg _) (fractionValue_nonneg _)

theorem value_eq_zero_iff : n.value = 0 ↔ n.shortWhole = [] ∧ n.shortFraction = [] := by
  have hfraction := fractionValue_nonneg n.shortFraction
  have hwhole : (0 : ℚ) ≤ digitsValue n.shortWhole := Nat.cast_nonneg _
  rw [value_eq, mul_eq_zero, or_iff_right (signValue_ne_zero _)]
  constructor
  · intro h
    have hw : digitsValue n.shortWhole = digitsValue [] := by
      have : (digitsValue n.shortWhole : ℚ) = 0 := by linarith
      exact_mod_cast this
    have hf : fractionValue n.shortFraction = fractionValue [] := by
      rw [fractionValue]
      linarith
    exact ⟨eq_of_digitsValue_eq n.isDigit_shortWhole nofun n.head?_shortWhole nofun hw,
      eq_of_fractionValue_eq n.isDigit_shortFraction nofun n.getLast?_shortFraction nofun hf⟩
  · rintro ⟨hw, hf⟩
    rw [hw, hf]
    simp [fractionValue, digitsValue]

/-- The spelling of zero. -/
def zero : Spelling := ⟨false, ['0'], [], forall_mem_singleton.mpr rfl, nofun, .inl (cons_ne_nil _ _)⟩

/-- The spelling without the zeros that can be left out. -/
def shortest : Spelling :=
  if h : n.shortWhole = [] ∧ n.shortFraction = [] then zero
  else ⟨n.negative, n.shortWhole, n.shortFraction, n.isDigit_shortWhole, n.isDigit_shortFraction, not_and_or.mp h⟩

variable {n m}

theorem shortest_of_value_eq_zero (h : n.value = 0) : n.shortest = zero := dif_pos (n.value_eq_zero_iff.mp h)

theorem shortest_of_value_ne_zero (h : n.value ≠ 0) :
    n.shortest.negative = n.negative ∧ n.shortest.whole = n.shortWhole ∧ n.shortest.fraction = n.shortFraction := by
  have hne : ¬(n.shortWhole = [] ∧ n.shortFraction = []) := fun hnil => h (n.value_eq_zero_iff.mpr hnil)
  rw [shortest, dif_neg hne]
  exact ⟨rfl, rfl, rfl⟩

theorem value_shortest (n : Spelling) : n.shortest.value = n.value := by
  by_cases h : n.value = 0
  · rw [shortest_of_value_eq_zero h, h]
    simp [value, zero, digitsValue, fractionValue]
  · obtain ⟨hsign, hwhole, hfraction⟩ := shortest_of_value_ne_zero h
    rw [value, hsign, hwhole, hfraction, ← value_eq]

/-- Numbers that denote the same have the same short spelling. -/
theorem shortest_eq_of_value_eq (h : n.value = m.value) : n.shortest = m.shortest := by
  by_cases hn : n.value = 0
  · rw [shortest_of_value_eq_zero hn, shortest_of_value_eq_zero (h ▸ hn)]
  have hm : m.value ≠ 0 := h ▸ hn
  obtain ⟨hsign, hwhole, hfraction⟩ := shortest_of_value_ne_zero hn
  obtain ⟨hsign', hwhole', hfraction'⟩ := shortest_of_value_ne_zero hm
  rw [value_eq, value_eq] at h
  rw [value_eq] at hn
  obtain ⟨hnegative, hmagnitude⟩ := eq_of_signValue_mul_eq n.magnitude_nonneg m.magnitude_nonneg hn h
  obtain ⟨hw, hf⟩ := eq_of_add_eq_add (fractionValue_nonneg _) (fractionValue_lt_one n.isDigit_shortFraction)
    (fractionValue_nonneg _) (fractionValue_lt_one m.isDigit_shortFraction) hmagnitude
  apply Spelling.ext
  · rw [hsign, hsign', hnegative]
  · rw [hwhole, hwhole']
    exact eq_of_digitsValue_eq n.isDigit_shortWhole m.isDigit_shortWhole n.head?_shortWhole m.head?_shortWhole hw
  · rw [hfraction, hfraction']
    exact eq_of_fractionValue_eq n.isDigit_shortFraction m.isDigit_shortFraction n.getLast?_shortFraction
      m.getLast?_shortFraction hf

theorem length_pointChars_dropLastZeros_le (s : List Char) : (pointChars (dropLastZeros s)).length ≤ (pointChars s).length := by
  have hle : (dropLastZeros s).length ≤ s.length := (List.rdropWhile_prefix _ _).length_le
  by_cases hnil : dropLastZeros s = []
  · simp [pointChars, hnil]
  · have hne : s ≠ [] := by
      rintro rfl
      exact hnil rfl
    rw [pointChars_of_ne_nil hnil, pointChars_of_ne_nil hne]
    simpa using hle

theorem length_chars_shortest_le (n : Spelling) : n.shortest.chars.length ≤ n.chars.length := by
  by_cases h : n.value = 0
  · rw [shortest_of_value_eq_zero h]
    exact length_pos_iff.mpr n.chars_ne_nil
  · obtain ⟨hsign, hwhole, hfraction⟩ := shortest_of_value_ne_zero h
    have hle : n.shortWhole.length ≤ n.whole.length := (dropWhile_suffix _).length_le
    have hle' := length_pointChars_dropLastZeros_le n.fraction
    rw [← shortFraction] at hle'
    rw [chars, chars, hsign, hwhole, hfraction]
    simp only [length_append]
    omega

/-- The short spelling is what a number is compressed to. -/
theorem compressChars_chars (n : Spelling) : compressChars n.chars = n.shortest.chars := by
  have hcut : cutPoint (n.whole ++ pointChars n.fraction) = (n.whole, n.fraction) := by
    have hwhole : ∀ c ∈ n.whole, (c != '.') = true := by
      intro c hc
      rw [bne_iff_ne]
      rintro rfl
      exact absurd (n.isDigit_whole '.' hc) (by decide)
    rw [cutPoint, takeWhile_append_of_pos hwhole, dropWhile_append_of_pos hwhole]
    by_cases hfraction : n.fraction = []
    · simp [pointChars, hfraction]
    · simp [pointChars_of_ne_nil hfraction]
  have hsign := n.cutSign_chars []
  rw [append_nil, append_nil] at hsign
  unfold compressChars
  simp only [hsign, hcut]
  rw [← shortWhole, ← shortFraction]
  by_cases h : n.value = 0
  · obtain ⟨hw, hf⟩ := n.value_eq_zero_iff.mp h
    rw [shortest_of_value_eq_zero h, hw, hf]
    rfl
  · obtain ⟨hsign, hwhole, hfraction⟩ := shortest_of_value_ne_zero h
    have hne := mt n.value_eq_zero_iff.mpr h
    rw [if_neg (by simpa using hne), chars, hsign, hwhole, hfraction, pointChars, append_assoc]
    simp only [List.isEmpty_iff]

theorem magnitude_append (n : Spelling) (hunit : s ∈ unitGrammar.matches') :
    magnitude (n.whole ++ (pointChars n.fraction ++ s)) = digitsValue n.whole + fractionValue n.fraction := by
  have hstop : s.takeWhile Char.isDigit = [] ∧ s.dropWhile Char.isDigit = s := by
    cases s with
    | nil => exact ⟨rfl, rfl⟩
    | cons c s =>
      have hc : ¬c.isDigit = true := fun h => not_of_mem_unitGrammar hunit mem_cons_self (.inl h)
      exact ⟨takeWhile_cons_of_neg hc, dropWhile_cons_of_neg hc⟩
  unfold magnitude
  rw [takeWhile_append_of_pos n.isDigit_whole, dropWhile_append_of_pos n.isDigit_whole]
  by_cases hfraction : n.fraction = []
  · rw [hfraction, pointChars, if_pos rfl, nil_append, hstop.1, hstop.2, append_nil]
    split
    · next t => exact absurd (.inr (.inr rfl)) (not_of_mem_unitGrammar hunit (c := '.') mem_cons_self)
    · rfl
  · have hpoint : ¬ '.'.isDigit = true := by decide
    rw [pointChars_of_ne_nil hfraction, cons_append, takeWhile_cons_of_neg hpoint,
      dropWhile_cons_of_neg hpoint, append_nil]
    simp only [takeWhile_append_of_pos n.isDigit_fraction, hstop.1, append_nil]

/-- A unit behind a number does not change what the number denotes. -/
theorem rational_of_toList_eq {n : Spelling} {text : String} (hunit : s ∈ unitGrammar.matches')
    (h : text.toList = n.chars ++ s) : rational text = n.value := by
  have hmagnitude := n.magnitude_append hunit
  obtain ⟨c, t, hct, hc⟩ := n.exists_cons
  rw [← append_assoc, hct] at hmagnitude
  rw [chars, append_assoc, hct] at h
  unfold rational value
  rw [h, ← hmagnitude]
  cases n.negative with
  | true => simp [signChars, signValue]
  | false =>
    simp only [signChars, signValue]
    split
    · next u heq => simp_all
    · simp

end Spelling

/-! ## Texts -/

variable {text other : String}

theorem compress_of_chars_eq {n : Spelling} (h : n.chars = text.toList) :
    compress text = String.ofList n.shortest.chars := by
  rw [compress, ← h, n.compressChars_chars]

theorem rational_of_chars_eq {n : Spelling} (h : n.chars = text.toList) : rational text = n.value :=
  Spelling.rational_of_toList_eq (s := []) (mem_unitGrammar.mpr rfl) (by rw [h, append_nil])

section

variable (h : IsNumber text)
include h

theorem isNumber_compress : IsNumber (compress text) := by
  obtain ⟨n, hn⟩ := mem_numberGrammar.mp h
  rw [IsNumber, compress_of_chars_eq hn, String.toList_ofList]
  exact n.shortest.chars_mem_numberGrammar

theorem rational_compress : rational (compress text) = rational text := by
  obtain ⟨n, hn⟩ := mem_numberGrammar.mp h
  rw [rational_of_chars_eq hn, ← n.value_shortest]
  exact rational_of_chars_eq (by rw [compress_of_chars_eq hn, String.toList_ofList])

theorem length_compress_le : (compress text).length ≤ text.length := by
  obtain ⟨n, hn⟩ := mem_numberGrammar.mp h
  rw [compress_of_chars_eq hn, String.length_ofList, ← String.length_toList, ← hn]
  exact n.length_chars_shortest_le

theorem compress_eq_of_rational_eq (hother : IsNumber other) (heq : rational text = rational other) :
    compress text = compress other := by
  obtain ⟨n, hn⟩ := mem_numberGrammar.mp h
  obtain ⟨m, hm⟩ := mem_numberGrammar.mp hother
  rw [rational_of_chars_eq hn, rational_of_chars_eq hm] at heq
  rw [compress_of_chars_eq hn, compress_of_chars_eq hm, Spelling.shortest_eq_of_value_eq heq]

theorem compress_compress : compress (compress text) = compress text :=
  compress_eq_of_rational_eq (isNumber_compress h) h (rational_compress h)

end

/-- **The compressed spelling of a number is the only shortest one**: it is a number of the grammar and denotes the same, no
number that denotes the same is shorter, and two numbers have the same one if and only if they denote the same. -/
theorem compress_is_canonical (h : IsNumber text) :
    IsNumber (compress text) ∧ rational (compress text) = rational text ∧
      (∀ other, IsNumber other → rational other = rational text → (compress text).length ≤ other.length) ∧
      (∀ other, IsNumber other → (compress text = compress other ↔ rational text = rational other)) ∧
      compress (compress text) = compress text := by
  refine ⟨isNumber_compress h, rational_compress h, fun other hother heq => ?_, fun other hother => ⟨fun heq => ?_, ?_⟩,
    compress_compress h⟩
  · rw [← compress_eq_of_rational_eq hother h heq]
    exact length_compress_le hother
  · rw [← rational_compress h, heq, rational_compress hother]
  · exact compress_eq_of_rational_eq h hother

theorem compress_is_canonical_leadingZeros :
    IsNumber "-007.50" ∧ compress "-007.50" = "-7.5" ∧ rational (compress "-007.50") = rational "-007.50" ∧
      ∀ other, IsNumber other → rational other = rational "-007.50" → (compress "-007.50").length ≤ other.length := by
  have h : IsNumber "-007.50" := by decide
  obtain ⟨-, hsame, hshortest, -⟩ := compress_is_canonical h
  exact ⟨h, by decide, hsame, hshortest⟩

end Stylesheet.Decimal
