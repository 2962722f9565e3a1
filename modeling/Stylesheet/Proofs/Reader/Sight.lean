import Stylesheet.Proofs.Reader.Importance
import Stylesheet.Proofs.Text.Cursor
import Stylesheet.Proofs.Text.Escape

/-!
# What a step sees of the text

A step looks ahead, to the end of a run, an escape or a comment, or for a property that starts the next line, and it
looks back, for backslashes and for the sign in front of a quote. Nothing bounds how far that is. `Sees` lists all
that a step in some state finds out in this way, so that two cursors which agree on it cannot be told apart.

Two texts that are read in a row do not see each other, if the first one ends in a closing brace or a semicolon:

* a step inside the first one sees nothing of what comes behind it (`Sees.of_sealed`), unless a comment has no end or
  the body of an at-rule has to be looked into to tell what it holds;
* a step inside the second one sees nothing of what stands in front of it (`Sees.of_behind`).
-/

open List

namespace Stylesheet.Text

variable {v tail : List Char} {p : Char → Bool}

/-! ## Texts that end in a closing token -/

/-- The text ends in a closing brace or a semicolon. -/
def Sealed (v : List Char) : Prop := v.getLast? = some '}' ∨ v.getLast? = some ';'

namespace Sealed

theorem ne_nil (h : Sealed v) : v ≠ [] := by
  rintro rfl
  simp [Sealed] at h

/-- What is left of the text ends in the same way. -/
theorem drop (h : Sealed v) {n : Nat} (hn : n < v.length) : Sealed (v.drop n) := by
  unfold Sealed
  rw [getLast?_drop, if_neg (by omega)]
  exact h

/-- A run that no closing token belongs to ends in front of the end. -/
theorem length_takeWhile_lt (h : Sealed v) (hbrace : p '}' = false) (hsemicolon : p ';' = false) :
    (v.takeWhile p).length < v.length := by
  obtain ⟨c, hc, hp⟩ : ∃ c ∈ v, p c = false := by
    rcases h with h | h
    · exact ⟨'}', mem_of_getLast? h, hbrace⟩
    · exact ⟨';', mem_of_getLast? h, hsemicolon⟩
  refine Nat.lt_of_le_of_ne (List.takeWhile_prefix p).length_le fun hlength => ?_
  have heq : v.takeWhile p = v := (List.takeWhile_prefix p).eq_of_length hlength
  rw [← heq] at hc
  simp [mem_takeWhile_imp hc] at hp

/-- Such a run does not depend on what comes behind the text. -/
theorem takeWhile_append (h : Sealed v) (hbrace : p '}' = false) (hsemicolon : p ';' = false) :
    (v ++ tail).takeWhile p = v.takeWhile p := by
  rw [List.takeWhile_append, if_neg (h.length_takeWhile_lt hbrace hsemicolon).ne]

/-- A character of a class that no closing token belongs to is not the last one. -/
theorem add_one_lt (h : Sealed v) (hbrace : p '}' = false) (hsemicolon : p ';' = false) {n : Nat}
    (hn : (v.drop n).head?.any p = true) : n + 1 < v.length := by
  rw [head?_drop] at hn
  by_cases hlt : n < v.length
  · refine Nat.lt_of_le_of_ne hlt fun hlast => ?_
    have hget : v[n]? = v.getLast? := by rw [getLast?_eq_getElem?, ← hlast, Nat.add_sub_cancel]
    rw [hget] at hn
    rcases h with h | h
    · simp [h, hbrace] at hn
    · simp [h, hsemicolon] at hn
  · simp [getElem?_eq_none (Nat.le_of_not_lt hlt)] at hn

end Sealed

/-- The character behind the first ones, as long as that is inside the text. -/
theorem head?_drop_append {n : Nat} (hn : n < v.length) : ((v ++ tail).drop n).head? = (v.drop n).head? := by
  rw [head?_drop, head?_drop, getElem?_append_left hn]

namespace Escape

/-! ## Escapes in front of a closing token -/

theorem digitsOf_append (h : Sealed v) : digitsOf (v ++ tail) = digitsOf v := by
  unfold digitsOf
  rw [h.takeWhile_append (by decide) (by decide)]

theorem length_digitsOf_lt (h : Sealed v) : (digitsOf v).length < v.length :=
  Nat.lt_of_le_of_lt (length_take_le' _ _) (h.length_takeWhile_lt (by decide) (by decide))

/-- An escape ends in front of a closing token. -/
theorem takenLength_lt (h : Sealed v) : takenLength v < v.length := by
  unfold takenLength
  simp only
  split
  · next hspace =>
    rw [Bool.and_eq_true] at hspace
    exact h.add_one_lt (by decide) (by decide) hspace.1
  · exact length_digitsOf_lt h

theorem takenLength_append (h : Sealed v) : takenLength (v ++ tail) = takenLength v := by
  unfold takenLength named
  simp only [digitsOf_append h, head?_drop_append (length_digitsOf_lt h)]
  -- only behind a space is the character after it looked at
  cases hspace : (v.drop (digitsOf v).length).head?.any isSpace with
  | false => simp
  | true =>
    have hlt := h.add_one_lt (by decide) (by decide) hspace
    rw [drop_drop, drop_drop, head?_drop_append hlt]

/-- What is read of an escape does not depend on what comes behind a closing token. -/
theorem read_append (h : Sealed v) (drop : Bool) : read drop (v ++ tail) = read drop v := by
  have hwritten : writtenText (v ++ tail) = writtenText v := by
    unfold writtenText named
    rw [digitsOf_append h, head?_drop_append (length_digitsOf_lt h)]
  have hnamed : named (v ++ tail) = named v := by
    rw [named, digitsOf_append h, named]
  rw [read_eq, read_eq, hwritten, hnamed, takenLength_append h, digitsOf_append h, head?_drop_append (takenLength_lt h)]

end Escape

end Stylesheet.Text

namespace Stylesheet.Reader

open Text State

namespace State

variable {v tail : List Char}

/-! ## Comments and properties in front of a closing token -/

/-- The end of a comment is found whatever comes behind it. -/
theorem cutComment?_append {text : List Char} (h : cutComment? v = some text) :
    cutComment? (v ++ tail) = some text := by
  fun_induction cutComment? v generalizing text with
  | case1 => cases h
  | case2 => simpa [cutComment?] using h
  | case3 c v hc ih =>
    obtain ⟨rest, hrest, rfl⟩ := Option.map_eq_some_iff.mp h
    rw [cons_append, cutComment?, ih hrest, Option.map_some]
    rintro w rfl hw
    cases v with
    | nil => cases hrest
    | cons d v =>
      rw [cons_append, cons.injEq] at hw
      exact hc v rfl (by rw [hw.1])

/-- The blank behind a text is not part of the end of a comment. -/
theorem cutComment?_of_blank {text : List Char} (h : cutComment? (v ++ [' ']) = some text) :
    cutComment? v = some text := by
  fun_induction cutComment? v generalizing text with
  | case1 => simp [cutComment?] at h
  | case2 => simpa [cutComment?] using h
  | case3 c v hc ih =>
    rw [cons_append, cutComment?] at h
    · obtain ⟨rest, hrest, rfl⟩ := Option.map_eq_some_iff.mp h
      rw [ih hrest, Option.map_some]
    · rintro w rfl hw
      cases v with
      | nil => cases hw
      | cons d v =>
        rw [cons_append, cons.injEq] at hw
        exact hc v rfl (by rw [hw.1])

/-- Whether a property follows is settled in front of a closing token. -/
theorem propertyFollows_append (h : Sealed v) : propertyFollows (v ++ tail) = propertyFollows v := by
  unfold propertyFollows
  simp only
  rw [h.takeWhile_append (by decide) (by decide), head?_drop_append (h.length_takeWhile_lt (by decide) (by decide))]

/-- The comment at a cursor, and how many characters beyond the first it takes along. -/
def commentAt (k : Cursor) : List Char × Nat :=
  match cutComment? (k.rest.drop 2) with
  | some text => (text, text.length + 3)
  | none => ((k.rest.drop 2).dropLast, (k.rest.drop 2).dropLast.length + 1)

theorem readComment_eq_addComment (o : Options) (k : Cursor) (s : State) :
    s.readComment o k = (s.addComment o (commentAt k).1, (commentAt k).2) := by
  unfold readComment commentAt
  simp only
  cases cutComment? (k.rest.drop 2) <;> rfl

end State

/-! ## Cursors that cannot be told apart -/

/-- All that a step in a state finds out about the text is the same at both cursors. -/
structure Sees (o : Options) (t : State) (k k' : Cursor) : Prop where
  escaped : k.escaped = k'.escaped
  equals : (k.before.head? == some '=') = (k'.before.head? == some '=')
  head : k.rest.head? = k'.rest.head?
  /-- Only the space behind a stylesheet has nothing behind it. -/
  last : (k.rest.drop 1).isEmpty = (k'.rest.drop 1).isEmpty
  run : k.ordinaryRun = k'.ordinaryRun
  atComment : atComment k = atComment k'
  comment : t.mode ≠ .string → t.mode ≠ .bracket → k'.atToken = true → State.atComment k' = true →
    commentAt k = commentAt k'
  escape : t.mode ≠ .string → t.mode ≠ .bracket → k'.atToken = true → k'.rest.head? = some '\\' →
    Text.Escape.read o.removeBackslash (k.rest.drop 1) = Text.Escape.read o.removeBackslash (k'.rest.drop 1)
  property : t.mode = .value → k'.rest.head? = some '\n' →
    propertyFollows (k.rest.drop 1) = propertyFollows (k'.rest.drop 1)
  second : k'.rest.head? = some '*' →
    (k.rest.drop 1).head?.any ['.', '#', '[', ':'].contains = (k'.rest.drop 1).head?.any ['.', '#', '[', ':'].contains
  body : t.mode = .atRule → k'.atToken = true → k'.rest.head? = some '{' →
    bodyOf t.flushPart.parts (k.rest.drop 1) = bodyOf t.flushPart.parts (k'.rest.drop 1)

theorem Sees.atToken {o : Options} {t : State} {k k' : Cursor} (h : Sees o t k k') : k.atToken = k'.atToken := by
  unfold Cursor.atToken
  rw [h.head, h.escaped]

/-! ## Behind another text -/

/-- Backslashes are counted only up to another character. -/
theorem oddBackslashes_append {front : List Char} (h : front.head? ≠ some '\\') (before : List Char) :
    oddBackslashes (before ++ front) = oddBackslashes before := by
  induction before with
  | nil =>
    cases front with
    | nil => rfl
    | cons c front =>
      have hc : c ≠ '\\' := fun hc => h (congrArg some hc)
      rw [nil_append, oddBackslashes_cons, beq_eq_false_iff_ne.mpr hc, Bool.false_and]
      rfl
  | cons c before ih => rw [cons_append, oddBackslashes_cons, oddBackslashes_cons, ih]

/-- A step does not see a text in front of the one it reads, if that ends in neither a backslash nor an equals
sign. -/
theorem Sees.of_behind {front : List Char} (hbackslash : front.head? ≠ some '\\')
    (hequals : front.head? ≠ some '=') (o : Options) (t : State) (before rest : List Char) :
    Sees o t ⟨before ++ front, rest⟩ ⟨before, rest⟩ where
  escaped := oddBackslashes_append hbackslash before
  equals := by
    cases before with
    | nil => simpa using hequals
    | cons c before => rfl
  head := rfl
  last := rfl
  run := rfl
  atComment := rfl
  comment _ _ _ _ := rfl
  escape _ _ _ _ := rfl
  property _ _ := rfl
  second _ := rfl
  body _ _ _ := rfl

/-! ## In front of another text -/

/-- The reader is in front of a comment without an end. -/
def atOpenComment (r : Reader) : Bool :=
  r.state.mode ≠ .string && r.state.mode ≠ .bracket && r.cursor.atToken && atComment r.cursor
    && (cutComment? (r.cursor.rest.drop 2)).isNone

/-- The reader is in front of the body of an at-rule whose name does not tell what the body holds. -/
def atUnknownBody (r : Reader) : Bool :=
  r.state.mode = .atRule && r.cursor.atToken && r.cursor.rest.head? == some '{'
    && (r.state.flushPart.parts.head?.bind Keyword.atBody?).isNone

theorem isSome_cutComment? {r : Reader} (h : r.atOpenComment = false) (hstring : r.state.mode ≠ .string)
    (hbracket : r.state.mode ≠ .bracket) (htoken : r.cursor.atToken = true)
    (hcomment : atComment r.cursor = true) :
    (cutComment? (r.cursor.rest.drop 2)).isSome = true := by
  simpa [atOpenComment, hstring, hbracket, htoken, hcomment] using h

theorem isSome_atBody? {r : Reader} (h : r.atUnknownBody = false) (hmode : r.state.mode = .atRule)
    (htoken : r.cursor.atToken = true) (hhead : r.cursor.rest.head? = some '{') :
    (r.state.flushPart.parts.head?.bind Keyword.atBody?).isSome = true := by
  simpa [atUnknownBody, hmode, htoken, hhead] using h

section

variable {o : Options} {t : State} {before v tail : List Char}

theorem atComment_append (hv : Sealed v) : atComment ⟨before, v ++ tail⟩ = atComment ⟨before, v ++ [' ']⟩ := by
  match v, hv with
  | [c], hv =>
    have hc : c ≠ '/' := by
      rintro rfl
      simp [Sealed] at hv
    cases tail <;> simp [atComment, hc]
  | c :: d :: v, _ => simp [atComment]

/-- A comment with an end is the same whatever comes behind the text. -/
theorem commentAt_append (hcomment : atComment ⟨before, v ++ [' ']⟩ = true) (hv : v ≠ [])
    (hcut : (cutComment? ((v ++ [' ']).drop 2)).isSome = true) :
    commentAt ⟨before, v ++ tail⟩ = commentAt ⟨before, v ++ [' ']⟩ := by
  match v, hv with
  | [c], _ =>
    simp [atComment] at hcomment
  | c :: d :: v, _ =>
    obtain ⟨text, htext⟩ := Option.isSome_iff_exists.mp hcut
    have hinside := cutComment?_of_blank htext
    simp only [commentAt, cons_append, drop_succ_cons, drop_zero, cutComment?_append hinside]

/-- What an at-rule holds is not looked for where its name tells. -/
theorem bodyOf_eq {parts : List String} (h : (parts.head?.bind Keyword.atBody?).isSome = true)
    (body body' : List Char) : bodyOf parts body = bodyOf parts body' := by
  obtain ⟨kind, hkind⟩ := Option.isSome_iff_exists.mp h
  simp only [bodyOf, hkind]

/-- A step inside a text that ends in a closing token does not see what comes behind it. -/
theorem Sees.of_sealed (hv : Sealed v) (htail : tail ≠ [])
    (hcomment : atOpenComment ⟨⟨before, v ++ [' ']⟩, t⟩ = false)
    (hbody : atUnknownBody ⟨⟨before, v ++ [' ']⟩, t⟩ = false) :
    Sees o t ⟨before, v ++ tail⟩ ⟨before, v ++ [' ']⟩ := by
  obtain ⟨c, w, rfl⟩ := exists_cons_of_ne_nil hv.ne_nil
  obtain ⟨e, tail, rfl⟩ := exists_cons_of_ne_nil htail
  -- in front of a character that closes nothing there is more of the text
  have hmore {d : Char} (hd : some c = some d) (hne : d ≠ '}' ∧ d ≠ ';') : Sealed w := by
    cases w with
    | nil =>
      cases hd
      simp [Sealed, hne.1, hne.2] at hv
    | cons e w => simpa [Sealed] using hv
  refine
    { escaped := rfl
      equals := rfl
      head := rfl
      last := by cases w <;> rfl
      run := ?run
      atComment := atComment_append hv
      comment := fun hstring hbracket htoken hat =>
        commentAt_append hat hv.ne_nil (isSome_cutComment? hcomment hstring hbracket htoken hat)
      escape := fun _ _ _ hhead => ?escape
      property := fun _ hhead => ?property
      second := fun hhead => ?second
      body := fun hmode htoken hhead => bodyOf_eq (isSome_atBody? hbody hmode htoken hhead) _ _ }
  case run =>
    rw [Cursor.ordinaryRun, Cursor.ordinaryRun, hv.takeWhile_append (by decide) (by decide),
      hv.takeWhile_append (by decide) (by decide)]
  case escape =>
    have hw := hmore hhead (by decide)
    exact (Text.Escape.read_append hw _).trans (Text.Escape.read_append hw _).symm
  case property =>
    have hw := hmore hhead (by decide)
    exact (propertyFollows_append hw).trans (propertyFollows_append hw).symm
  case second =>
    obtain ⟨d, w, rfl⟩ := exists_cons_of_ne_nil (hmore hhead (by decide)).ne_nil
    rfl

end

end Stylesheet.Reader
