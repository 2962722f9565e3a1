import Stylesheet.Proofs.Reader.Taken

/-!
# Closing braces behind a text

A text may end while blocks are open. Here a step in such a text is compared with the same step where closing braces
stand behind the text. Whatever a step looks for, a brace stops it where the blank behind the text does, so that the two
see the same (`Sees.of_closing`), with one exception.

Escapes are that exception (`Escape.read_closing`). The blank behind a text may end the digits of an escape, which then
takes it along, and a backslash in front of one last space is dropped if no token stands behind that space.
-/

namespace Stylesheet

open List

namespace Text

theorem takeWhile_append_cons {p : Char → Bool} {x : Char} (hx : p x = false) (w l : List Char) :
    (w ++ x :: l).takeWhile p = w.takeWhile p := by
  rw [takeWhile_append, takeWhile_cons_of_neg (by simp [hx]), append_nil]
  split
  · next hall => exact ((List.takeWhile_prefix p).eq_of_length hall).symm
  · rfl

/-! ## Escapes -/

namespace Escape

variable {w l : List Char} {x : Char}

section

variable (hx : x.isHexDigit = false)
include hx

theorem digitsOf_append_cons : digitsOf (w ++ x :: l) = digitsOf w := by
  rw [digitsOf, takeWhile_append_cons hx, digitsOf]

theorem named_append_cons : named (w ++ x :: l) = named w := by
  rw [named, digitsOf_append_cons hx, named]

/-- What follows is not looked at, if something else stands behind the digits. -/
theorem writtenText_append_cons (h : (digitsOf w).length < w.length) : writtenText (w ++ x :: l) = writtenText w := by
  rw [writtenText, named_append_cons hx, digitsOf_append_cons hx, head?_drop, getElem?_append_left h,
    writtenText, head?_drop]

theorem takenLength_append_cons (h : (digitsOf w).length < w.length) : takenLength (w ++ x :: l) = takenLength w := by
  have hnext : (w ++ x :: l)[(digitsOf w).length + 1]?.any Char.isHexDigit
      = w[(digitsOf w).length + 1]?.any Char.isHexDigit := by
    rcases Nat.lt_or_eq_of_le (Nat.add_one_le_of_lt h) with hlt | heq
    · rw [getElem?_append_left hlt]
    · rw [heq, getElem?_append_right le_rfl, Nat.sub_self, getElem?_eq_none le_rfl]
      exact hx
  simp only [takenLength, digitsOf_append_cons hx, named_append_cons hx, drop_drop, head?_drop, hnext,
    getElem?_append_left h]

end

theorem takenLength_le_add_one (after : List Char) : takenLength after ≤ (digitsOf after).length + 1 := by
  unfold takenLength
  simp only
  split
  · exact le_rfl
  · exact Nat.le_succ _

/-- Without digits, an escape takes all of a text along if that is one space. -/
theorem eq_singleton_of_takenLength (hw : w ≠ []) (hdigits : digitsOf w = []) (h : takenLength w = w.length) :
    ∃ y, w = [y] ∧ isSpace y = true := by
  have hle := takenLength_le_add_one w
  rw [hdigits, h] at hle
  obtain ⟨y, rfl⟩ := length_eq_one_iff.mp (le_antisymm hle (length_pos_of_ne_nil hw))
  refine ⟨y, rfl, ?_⟩
  by_contra hspace
  simp [takenLength, hdigits, hspace] at h

/-- A lone backslash has no digits behind it, and no blank. -/
theorem of_writtenText_eq (h : writtenText w = "\\") : digitsOf w = [] ∧ w.head? ≠ some ' ' := by
  unfold writtenText at h
  split at h
  · next halnum =>
    have hchar : named w = '\\' := by simpa using congrArg String.toList h
    rw [hchar] at halnum
    exact absurd halnum (by decide)
  · split at h
    · exact absurd h (by decide)
    · next hblank =>
      have hdigits : digitsOf w = [] := by simpa using congrArg String.toList h
      refine ⟨hdigits, fun hhead => hblank ?_⟩
      simp [hdigits, hhead]

/-- An escape that is not a lone backslash stays. -/
theorem read_of_ne (drop : Bool) (h : writtenText w ≠ "\\") :
    read drop w
      = { text := writtenText w, length := takenLength w
          change :=
            if (named w).isAlphanum then some (.replaced (String.ofList (digitsOf w)) (named w)) else none } := by
  rw [read_eq, if_neg]
  simp [h]

theorem takenLength_of_digits (hx : x.isHexDigit = false) (h : digitsOf w = w) :
    takenLength (w ++ x :: l)
      = if isSpace x && !(l.head?.any Char.isHexDigit && !(named w).isAlphanum) then w.length + 1 else w.length := by
  simp only [takenLength, digitsOf_append_cons hx, named_append_cons hx, h, drop_left, head?_cons,
    Option.any_some, drop_succ_cons, drop_zero]

/-- Digits that reach the end of a text. -/
theorem read_of_digits (drop : Bool) (hx : x.isHexDigit = false) (hw : w ≠ []) (h : digitsOf w = w) :
    read drop (w ++ x :: l)
      = { text := if (named w).isAlphanum then String.singleton (named w) else "\\" ++ String.ofList w
          length := takenLength (w ++ x :: l)
          change := if (named w).isAlphanum then some (.replaced (String.ofList w) (named w)) else none } := by
  have hdigits : digitsOf (w ++ x :: l) = w := by rw [digitsOf_append_cons hx, h]
  have hne : writtenText (w ++ x :: l) ≠ "\\" := fun hlone => hw (hdigits ▸ (of_writtenText_eq hlone).1)
  have hempty : w.isEmpty = false := by simpa using hw
  rw [read_of_ne drop hne, writtenText, hdigits, named_append_cons hx, hempty, Bool.false_and,
    if_neg Bool.false_ne_true]

/-- Two characters that are no digits make no difference behind an escape that stops in front of them, unless it is a lone
backslash with nothing but the space that it takes along. -/
theorem read_append_congr {drop : Bool} {y : Char} {m : List Char} (hx : x.isHexDigit = false) (hy : y.isHexDigit = false)
    (hlt : (digitsOf w).length < w.length) (hlone : writtenText w = "\\" → drop = true → takenLength w ≠ w.length) :
    read drop (w ++ x :: l) = read drop (w ++ y :: m) := by
  rw [read_eq, read_eq, takenLength_append_cons hx hlt, takenLength_append_cons hy hlt, writtenText_append_cons hx hlt,
    writtenText_append_cons hy hlt, named_append_cons hx, named_append_cons hy, digitsOf_append_cons hx,
    digitsOf_append_cons hy]
  rcases Nat.lt_or_eq_of_le ((takenLength_le_add_one w).trans hlt) with hinside | hend
  · rw [head?_drop, head?_drop, getElem?_append_left hinside, getElem?_append_left hinside]
  · have hstays : (writtenText w == "\\" && drop) = false := by simpa using fun h hdrop => hlone h hdrop hend
    rw [hstays, Bool.false_and, Bool.false_and]

/-- **An escape at the end of a text.** Closing braces make no difference, but if the digits reach the end, the blank
behind the text is taken along and a brace is not; and a lone backslash stays if the space behind it has a brace behind
it. -/
theorem read_closing (drop : Bool) (hw : w ≠ []) (l : List Char) :
    (read drop (w ++ '}' :: l) = read drop (w ++ [' ']) ∧ takenLength (w ++ [' ']) ≤ w.length) ∨
    (read drop (w ++ [' ']) = { read drop (w ++ '}' :: l) with length := w.length + 1 } ∧
      takenLength (w ++ '}' :: l) = w.length) ∨
    (drop = true ∧ ∃ y, w = [y] ∧ isSpace y = true ∧ y ≠ ' ' ∧
      takenLength (w ++ '}' :: l) = 1 ∧ takenLength (w ++ [' ']) = 1) := by
  have hblank : ' '.isHexDigit = false := by decide
  have hbrace : '}'.isHexDigit = false := by decide
  rcases Nat.lt_or_eq_of_le (length_digitsOf_le w) with hlt | heq
  · have htaken : takenLength w ≤ w.length := (takenLength_le_add_one w).trans hlt
    rw [takenLength_append_cons hbrace hlt, takenLength_append_cons hblank hlt]
    by_cases hsame : writtenText w = "\\" ∧ drop = true ∧ takenLength w = w.length
    · -- nothing but one space stands behind the backslash
      obtain ⟨hlone, hdrop, hend⟩ := hsame
      obtain ⟨hdigits, hhead⟩ := of_writtenText_eq hlone
      obtain ⟨y, rfl, hspace⟩ := eq_singleton_of_takenLength hw hdigits hend
      exact .inr (.inr ⟨hdrop, y, rfl, hspace, fun hy => hhead (by rw [hy]; rfl), hend, hend⟩)
    · exact .inl ⟨read_append_congr hbrace hblank hlt fun hlone hdrop hend => hsame ⟨hlone, hdrop, hend⟩, htaken⟩
  · have hdigits : digitsOf w = w := by rw [digitsOf_eq_take, heq, take_length]
    have htaken : takenLength (w ++ '}' :: l) = w.length := by
      rw [takenLength_of_digits hbrace hdigits, if_neg (by simp [isSpace])]
    have htaken' : takenLength (w ++ [' ']) = w.length + 1 := by
      rw [takenLength_of_digits hblank hdigits, if_pos (by simp [isSpace])]
    refine .inr (.inl ⟨?_, htaken⟩)
    rw [read_of_digits drop hblank hw hdigits, read_of_digits drop hbrace hw hdigits, htaken']

end Escape

end Text

namespace Reader

open Text State

/-- Closing braces, and the blank behind a text. -/
def closing (n : Nat) : List Char := replicate n '}' ++ [' ']

theorem closing_succ (n : Nat) : closing (n + 1) = '}' :: closing n := rfl

variable {o : Options} {s : State} {before w : List Char} {c : Char} {n : Nat}

/-! ## What a step looks for -/

theorem propertyFollows_closing : propertyFollows (w ++ closing (n + 1)) = propertyFollows (w ++ [' ']) := by
  rw [closing_succ]
  unfold propertyFollows
  generalize hp : (fun c : Char => c != ':' && c != ';' && c != '{' && c != '}') = p
  have hbrace : p '}' = false := by rw [← hp]; rfl
  have hblank : p ' ' = true := by rw [← hp]; rfl
  simp only [takeWhile_append_cons hbrace, takeWhile_append, takeWhile_cons_of_pos hblank, takeWhile_nil]
  split
  · next hall =>
    -- there is no colon in either text
    rw [hall, drop_left, drop_length]
    simp
  · next hall =>
    have hlt := Nat.lt_of_le_of_ne (List.takeWhile_prefix p).length_le hall
    rw [head?_drop, head?_drop, getElem?_append_left hlt, getElem?_append_left hlt]

theorem colonFirst_closing (escaped : Bool) (w : List Char) (n : Nat) :
    colonFirst escaped (w ++ closing n) = colonFirst escaped w := by
  induction w generalizing escaped with
  | nil =>
    induction n generalizing escaped with
    | zero => simp [closing, colonFirst]
    | succ n ih =>
      have hbrace : colonFirst escaped ('}' :: closing n) = colonFirst false (closing n) := by
        rw [colonFirst, if_neg (by simp), if_neg (by simp)]
        rfl
      rw [nil_append, closing_succ, hbrace]
      exact ih false
  | cons c w ih => rw [cons_append, colonFirst, ih, colonFirst]

theorem bodyOf_closing (parts : List String) : bodyOf parts (w ++ closing (n + 1)) = bodyOf parts (w ++ [' ']) := by
  unfold bodyOf
  rw [colonFirst_closing false w (n + 1), ← colonFirst_closing false w 0]
  rfl

/-- The reader is in front of an escape. -/
def atEscape (r : Reader) : Prop :=
  r.state.mode ≠ .string ∧ r.state.mode ≠ .bracket ∧ r.cursor.atToken = true ∧ r.cursor.rest.head? = some '\\'

/-- **Closing braces are not seen** by a step in front of them, but for an escape. -/
theorem Sees.of_closing (hcomment : atOpenComment ⟨⟨before, c :: w ++ [' ']⟩, s⟩ = false)
    (hescape : atEscape ⟨⟨before, c :: w ++ [' ']⟩, s⟩ →
      Text.Escape.read o.removeBackslash (w ++ closing (n + 1)) = Text.Escape.read o.removeBackslash (w ++ [' '])) :
    Sees o s ⟨before, c :: w ++ closing (n + 1)⟩ ⟨before, c :: w ++ [' ']⟩ where
  escaped := rfl
  equals := rfl
  head := rfl
  last := by cases w <;> rfl
  run := by
    rw [Cursor.ordinaryRun, Cursor.ordinaryRun, closing_succ, takeWhile_append_cons (by decide),
      takeWhile_append_cons (by decide)]
  atComment := by cases w <;> simp [State.atComment, closing_succ]
  comment hstring hbracket htoken hat :=
    commentAt_append hat (cons_ne_nil c w) (isSome_cutComment? hcomment hstring hbracket htoken hat)
  escape hstring hbracket htoken hhead := hescape ⟨hstring, hbracket, htoken, hhead⟩
  property _ _ := propertyFollows_closing
  second _ := by cases w <;> rfl
  body _ _ _ := bodyOf_closing _

/-! ## Escapes at the end -/

/-- A step at an escape reads the escape, in all modes alike. -/
theorem step_of_atEscape {k : Cursor} (h : atEscape ⟨k, s⟩) (hmore : k.rest.tail ≠ []) :
    s.step o k '\\' = ((s.readEscape o k).2.1.putText (s.readEscape o k).1, (s.readEscape o k).2.2) := by
  obtain ⟨hstring, hbracket, htoken, hhead⟩ :
    s.mode ≠ .string ∧ s.mode ≠ .bracket ∧ k.atToken = true ∧ k.rest.head? = some '\\' := h
  obtain ⟨tail, hrest⟩ := head?_eq_some_iff.mp hhead
  have hcomment : State.atComment k = false := by
    rw [State.atComment, hrest, take_succ_cons]
    rfl
  rcases hread : s.readEscape o k with ⟨text, t, taken⟩
  have hmode : t.mode = s.mode := by
    obtain ⟨line, new, -, rfl⟩ := readEscape_eq hread
    rfl
  unfold step putText
  rw [hmode]
  cases hm : s.mode with
  | string => exact absurd hm hstring
  | bracket => exact absurd hm hbracket
  | selector => simp [inSelector, htoken, hcomment, hread, hmode, hm]
  | property => simp [inProperty, htoken, hcomment, hread, hmode, hm]
  | value => simp [inValue, htoken, hcomment, hread, hmode, hm, hmore]
  | atRule => simp [inAtRule, htoken, hcomment, hread, hmode, hm]

/-- How much of the text a step takes along that does not reach beyond it. -/
theorem taken_le (hcomment : atOpenComment ⟨⟨before, c :: w ++ [' ']⟩, s⟩ = false)
    (hescape : atEscape ⟨⟨before, c :: w ++ [' ']⟩, s⟩ → Text.Escape.takenLength (w ++ [' ']) ≤ w.length) :
    (s.step o ⟨before, c :: w ++ [' ']⟩ c).2 ≤ w.length := by
  have htakes := step_takes o s ⟨before, c :: w ++ [' ']⟩ c
  generalize (s.step o ⟨before, c :: w ++ [' ']⟩ c).2 = taken at htakes
  cases htakes with
  | alone => exact Nat.zero_le _
  | run =>
    have hle := readRun_le ⟨before, c :: w ++ [' ']⟩ c
    have hrun : Cursor.ordinaryRun ⟨before, c :: w ++ [' ']⟩ = (c :: w).takeWhile isOrdinary :=
      takeWhile_append_cons (by decide) (c :: w) []
    have hlength := (List.takeWhile_prefix isOrdinary (l := c :: w)).length_le
    rw [hrun] at hle
    rw [length_cons] at hlength
    omega
  | comment hstring hbracket htoken hat =>
    obtain ⟨text, hcut⟩ := Option.isSome_iff_exists.mp (isSome_cutComment? hcomment hstring hbracket htoken hat)
    cases w with
    | nil => simp [State.atComment] at hat
    | cons d w =>
      obtain ⟨more, hmore⟩ := eq_of_cutComment? (cutComment?_of_blank hcut)
      have hlength := congrArg length hmore
      simp only [length_append, length_cons] at hlength
      rw [commentAt, hcut, length_cons]
      simp only
      omega
  | escape hstring hbracket htoken hc => exact hescape ⟨hstring, hbracket, htoken, congrArg some hc⟩

end Reader

end Stylesheet
