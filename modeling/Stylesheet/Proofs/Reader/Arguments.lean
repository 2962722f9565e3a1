import Stylesheet.Proofs.RoundTrip.Quotes

/-!
# Functions in values

What stands between the parentheses of a function is read as one part of the value, up to the parenthesis that closes
the function. Delimiters and comments have no meaning in there, and nothing is changed but space. The reader settles
that character by character, on what it has of the part (`argued`); `squeezed` says of a text as a whole which blanks are
left of its space. Both agree (`foldl_argued`), so that a function is read as `squeezed` says (`tree_read_function`).
-/

namespace Stylesheet.Reader

open Text State List

variable {o : Options} {tail before text : List Char} {s : State} {c : Char}

/-! ## Space in a text -/

/-- Each run of space as one blank. -/
def blankRuns : List Char → List Char
  | [] => []
  | c :: text =>
    if isSpace c = false then c :: blankRuns text
    else if text.head?.any isSpace then blankRuns text
    else ' ' :: blankRuns text

/-- The text without the blanks right behind an opening parenthesis or a comma, or right in front of a closing
parenthesis or a comma. In front of the text stands `front`. -/
def dropBlanks (front : Option Char) : List Char → List Char
  | [] => []
  | c :: text =>
    if c = ' ' ∧ (front ∈ [some '(', some ','] ∨ text.head? ∈ [some ')', some ',']) then dropBlanks (some c) text
    else c :: dropBlanks (some c) text

/-- The text with as little space as there may be in a function. -/
def squeezed (text : String) : String := String.ofList (dropBlanks none (blankRuns text.toList))

theorem blankRuns_cons_of_isSpace (hc : isSpace c = true) (text : List Char) :
    blankRuns (c :: text) = if text.head?.any isSpace then blankRuns text else ' ' :: blankRuns text := by
  simp [blankRuns, hc]

theorem blankRuns_cons_of_not_isSpace (hc : isSpace c = false) (text : List Char) :
    blankRuns (c :: text) = c :: blankRuns text := by
  simp [blankRuns, hc]

theorem dropBlanks_cons_of_ne (hc : c ≠ ' ') (front : Option Char) (text : List Char) :
    dropBlanks front (c :: text) = c :: dropBlanks (some c) text := by
  simp [dropBlanks, hc]

/-- Space right behind an opening parenthesis or a comma does not matter. -/
theorem dropBlanks_blankRuns_cons {front : Option Char} (hfront : front ∈ [some '(', some ',']) (hc : isSpace c = true)
    (text : List Char) : dropBlanks front (blankRuns (c :: text)) = dropBlanks front (blankRuns text) := by
  rw [blankRuns_cons_of_isSpace hc]
  split
  · rfl
  · next hhead =>
    rw [dropBlanks, if_pos ⟨rfl, .inl hfront⟩]
    cases text with
    | nil => rfl
    | cons d text =>
      have hd : isSpace d = false := by simpa using hhead
      have hblank : d ≠ ' ' := by
        rintro rfl
        exact absurd hd (by decide)
      rw [blankRuns_cons_of_not_isSpace hd, dropBlanks_cons_of_ne hblank, dropBlanks_cons_of_ne hblank]

/-- **Only space goes**: what is left of the rest is all of it. -/
theorem filter_squeezed (text : String) :
    (squeezed text).toList.filter (!isSpace ·) = text.toList.filter (!isSpace ·) := by
  have hdrop (front : Option Char) (text : List Char) :
      (dropBlanks front text).filter (!isSpace ·) = text.filter (!isSpace ·) := by
    induction text generalizing front with
    | nil => rfl
    | cons c text ih =>
      rw [dropBlanks]
      split
      · next hblank =>
        obtain ⟨rfl, -⟩ := hblank
        rw [ih, filter_cons_of_neg (by decide)]
      · rw [filter_cons, filter_cons, ih]
  rw [squeezed, String.toList_ofList, hdrop]
  induction text.toList with
  | nil => rfl
  | cons c text ih =>
    cases hc : isSpace c with
    | false => rw [blankRuns_cons_of_not_isSpace hc, filter_cons, filter_cons, ih]
    | true =>
      rw [blankRuns_cons_of_isSpace hc, filter_cons_of_neg (by simp [hc]), ← ih]
      split
      · rfl
      · rw [filter_cons_of_neg (by decide)]

/-! ## Reading characters one by one -/

/-- A part with one more character of the arguments of a function. -/
def argued (part : String) (c : Char) : String := (pushArgument { part } (if isSpace c then ' ' else c)).part

theorem pushArgument_argued (s : State) (c : Char) :
    s.pushArgument (if isSpace c then ' ' else c) = { s with part := argued s.part c } := by
  unfold argued
  generalize (if isSpace c then ' ' else c) = c
  unfold pushArgument
  simp only
  split
  · rfl
  · split <;> rfl

theorem last?_push (part : String) (c : Char) : last? (part.push c) = some c := by
  simp [last?]

/-- Space becomes a blank, unless there is one already or none is needed. -/
theorem argued_of_isSpace (hc : isSpace c = true) (part : String) :
    argued part c = if last? part ∈ [some ' ', some ',', some '('] then part else part.push ' ' := by
  by_cases hlast : last? part ∈ [some ' ', some ',', some '(']
  · rw [if_pos hlast]
    simp_all [argued, pushArgument, or_assoc]
  · rw [if_neg hlast]
    simp_all [argued, pushArgument]

/-- Any other character goes to the end of the part, and takes the place of a blank in front of which it may not stand. -/
theorem argued_of_not_isSpace (hc : isSpace c = false) (part : String) :
    argued part c =
      if (c = ',' ∨ c = ')') ∧ last? part = some ' ' then (Text.dropLast part).push c else part.push c := by
  have hblank : c ≠ ' ' := by
    rintro rfl
    exact absurd hc (by decide)
  simp [argued, pushArgument, hc, hblank]
  split <;> rfl

theorem push_append_ofList (part : String) (c : Char) (text : List Char) :
    part.push c ++ String.ofList text = part ++ String.ofList (c :: text) := by
  apply String.toList_injective
  simp [String.toList_append]

/-- **Both ways to settle space agree.** A blank at the end of a part is not settled yet, so that it is still left to the
text behind it. -/
theorem foldl_argued (text : List Char) {part : String} (hpart : last? part ≠ some ' ') :
    text.foldl argued part = part ++ String.ofList (dropBlanks (last? part) (blankRuns text)) ∧
      (last? part ∉ [some '(', some ','] → text.foldl argued (part.push ' ') =
        part ++ String.ofList (dropBlanks (last? part) (blankRuns (' ' :: text)))) := by
  have hspace : isSpace ' ' = true := by decide
  induction text generalizing part with
  | nil =>
    refine ⟨by simp [blankRuns, dropBlanks], fun hfront => ?_⟩
    rw [foldl_nil, blankRuns_cons_of_isSpace hspace, String.push_eq_append]
    simp [blankRuns, dropBlanks, hfront]
  | cons c text ih =>
    simp only [foldl_cons]
    cases hc : isSpace c with
    | true =>
      have hsame : blankRuns (c :: text) = blankRuns (' ' :: text) := by
        rw [blankRuns_cons_of_isSpace hc, blankRuns_cons_of_isSpace hspace]
      have hruns : blankRuns (' ' :: c :: text) = blankRuns (c :: text) := by
        rw [blankRuns_cons_of_isSpace hspace, head?_cons, Option.any_some, hc, if_pos rfl]
      constructor
      · by_cases hfront : last? part ∈ [some '(', some ',']
        · rw [argued_of_isSpace hc, if_pos (by simp_all [or_comm]), (ih hpart).1, dropBlanks_blankRuns_cons hfront hc]
        · rw [argued_of_isSpace hc, if_neg (by simp_all), (ih hpart).2 hfront, hsame]
      · intro hfront
        rw [argued_of_isSpace hc, last?_push, if_pos (by simp), (ih hpart).2 hfront, hruns, hsame]
    | false =>
      have hblank : c ≠ ' ' := by
        rintro rfl
        exact absurd hc (by decide)
      have hpush (part : String) : text.foldl argued (part.push c) =
          part ++ String.ofList (c :: dropBlanks (some c) (blankRuns text)) := by
        have hlast := last?_push part c
        rw [(ih (by simpa [hlast] using hblank)).1, hlast, push_append_ofList]
      have hruns : blankRuns (c :: text) = c :: blankRuns text := blankRuns_cons_of_not_isSpace hc text
      constructor
      · rw [argued_of_not_isSpace hc, if_neg (by simp [hpart]), hpush, hruns, dropBlanks_cons_of_ne hblank]
      · intro hfront
        have hmore : blankRuns (' ' :: c :: text) = ' ' :: c :: blankRuns text := by
          rw [blankRuns_cons_of_isSpace hspace, hruns]
          simp [hc]
        have hdrop : Text.dropLast (part.push ' ') = part := by simp [Text.dropLast]
        rw [argued_of_not_isSpace hc, last?_push, hdrop, hmore, dropBlanks, head?_cons, dropBlanks_cons_of_ne hblank]
        by_cases hclose : c = ',' ∨ c = ')'
        · rw [if_pos ⟨hclose, rfl⟩, hpush, if_pos ⟨rfl, .inr (by simpa [or_comm] using hclose)⟩]
        · rw [if_neg fun h => hclose h.1, hpush, if_neg (by simp_all), push_append_ofList]

theorem foldl_argued_eq_squeezed (text : String) : text.toList.foldl argued "" = squeezed text := by
  have hlast : last? "" = none := by decide
  rw [(foldl_argued text.toList (by simp [hlast])).1, hlast, String.empty_append, squeezed]

theorem argued_of_isOrdinary (hc : isOrdinary c = true) (part : String) : argued part c = part ++ String.ofList [c] := by
  have hne {d : Char} (hd : isOrdinary d = false) : c ≠ d := ne_of_isOrdinary hc hd
  rw [argued_of_not_isSpace (isSpace_of_isOrdinary hc),
    if_neg (by simp [hne (d := ',') (by decide), hne (d := ')') (by decide)]), String.push_eq_append]
  rfl

theorem foldl_argued_of_isOrdinary (h : ∀ c ∈ text, isOrdinary c = true) (part : String) :
    text.foldl argued part = part ++ String.ofList text := by
  induction text generalizing part with
  | nil => simp
  | cons c text ih =>
    obtain ⟨hc, hrest⟩ := forall_mem_cons.mp h
    rw [foldl_cons, argued_of_isOrdinary hc, ih hrest, String.append_assoc, ← String.ofList_append]
    rfl

/-! ## Reading arguments -/

/-- A character that starts no string and escapes nothing. -/
def IsArgumentChar (c : Char) : Prop := c ≠ '"' ∧ c ≠ '\'' ∧ c ≠ '\\' ∧ c ≠ '\r'

/-- Each parenthesis that is closed in the text has been opened in it before, and each that is opened is closed. -/
structure Balanced (text : List Char) : Prop where
  opened : ∀ front, front <+: text → front.count ')' ≤ front.count '('
  closed : text.count '(' = text.count ')'

instance (text : List Char) : Decidable (Balanced text) :=
  decidable_of_iff ((∀ front ∈ text.inits, front.count ')' ≤ front.count '(') ∧ text.count '(' = text.count ')')
    ⟨fun h => ⟨fun front hfront => h.1 front ((mem_inits _ _).mpr hfront), h.2⟩,
      fun h => ⟨fun front hfront => h.opened front ((mem_inits _ _).mp hfront), h.closed⟩⟩

/-- The state behind a text inside a function. -/
def argueAll (s : State) (text : List Char) (line : Nat) : State :=
  { s with part := text.foldl argued s.part, depth := s.depth + text.count '(' - text.count ')', line }

/-- A step over a character that does not close the function. -/
theorem inBracket_eq {k : Text.Cursor} (hc : IsArgumentChar c) (hescaped : k.escaped = false)
    (hrest : k.rest = c :: tail) (hordinary : isOrdinary c = false) (hdepth : c = ')' → 1 < s.depth) :
    s.inBracket k c = (argueAll s [c] s.line, 0) := by
  obtain ⟨hdouble, hsingle, -, -⟩ := hc
  have hpush (depth : Nat) := pushArgument_argued { s with depth } c
  cases hspace : isSpace c with
  | true =>
    have hparens : c ≠ '(' ∧ c ≠ ')' := by
      constructor <;> rintro rfl <;> exact absurd hspace (by decide)
    rw [hspace, if_pos rfl] at hpush
    simp [inBracket, hspace, hpush s.depth, argueAll, hparens]
  | false =>
    simp only [hspace, Bool.false_eq_true, if_false] at hpush
    by_cases hopen : c = '('
    · subst hopen
      simp [inBracket, hspace, hescaped, hpush, argueAll]
    by_cases hclose : c = ')'
    · subst hclose
      have hpos : s.depth - 1 ≠ 0 := Nat.sub_ne_zero_of_lt (hdepth rfl)
      simp [inBracket, hspace, hescaped, hpush, hpos, argueAll]
    by_cases hcomma : c = ','
    · subst hcomma
      simp [inBracket, hspace, hescaped, hpush s.depth, argueAll]
    · have hrun : readRun k c = (String.singleton c, 0) := by
        simp [readRun, Text.Cursor.ordinaryRun, hrest, hordinary]
      have hargued : argued s.part c = s.part ++ String.singleton c := by
        rw [argued_of_not_isSpace hspace, if_neg (by simp [hcomma, hclose]), String.push_eq_append]
      simp [inBracket, hspace, hescaped, hdouble, hsingle, hopen, hclose, hcomma, hrun, hargued, argueAll]

/-- A character of the arguments is read, unless it closes the function. -/
theorem run_argument (hc : IsArgumentChar c) (hmode : s.mode = .bracket) (hdepth : c = ')' → 1 < s.depth)
    (hbefore : oddBackslashes before = false) (hend : ∃ d ∈ tail, isOrdinary d = false) :
    ∃ line, run o ⟨⟨before, c :: tail⟩, s⟩ = run o ⟨⟨c :: before, tail⟩, argueAll s [c] line⟩ := by
  cases hordinary : isOrdinary c with
  | true =>
    have hwrite : s.putText (String.ofList [c]) = argueAll s [c] s.line := by
      simp [State.putText, hmode, argueAll, argued_of_isOrdinary hordinary,
        ne_of_isOrdinary hordinary (d := '(') (by decide), ne_of_isOrdinary hordinary (d := ')') (by decide)]
    exact ⟨s.line, by rw [run_ordinary (by simp [hmode]) hbefore hend hordinary, hwrite]⟩
  | false =>
    obtain ⟨line, hline⟩ := s.countLine_eq c
    have hstep : (s.countLine c).step o ⟨before, c :: tail⟩ c = (argueAll s [c] line, 0) := by
      have hmode' : (s.countLine c).mode = .bracket := by rwa [hline]
      rw [step, hmode', hline]
      exact inBracket_eq (s := { s with line }) hc hbefore rfl hordinary hdepth
    exact ⟨line, by rw [← run_next, next_of_alone (by simp [hmode]) hstep]⟩

/-- **The arguments of a function are read** as long as no parenthesis in them closes it. -/
theorem run_arguments (hplain : ∀ c ∈ text, IsArgumentChar c) (hmode : s.mode = .bracket)
    (hopen : ∀ front, front <+: text → front.count ')' < s.depth + front.count '(')
    (hbefore : oddBackslashes before = false) (tail : List Char) (hend : ∃ d ∈ tail, isOrdinary d = false) :
    ∃ before' line, oddBackslashes before' = false ∧
      run o ⟨⟨before, text ++ tail⟩, s⟩ = run o ⟨⟨before', tail⟩, argueAll s text line⟩ := by
  induction text generalizing s before with
  | nil => exact ⟨before, s.line, hbefore, rfl⟩
  | cons c text ih =>
    obtain ⟨hc, hrest⟩ := forall_mem_cons.mp hplain
    have hfirst := hopen [c] ⟨text, rfl⟩
    have hdepth : c = ')' → 1 < s.depth := by
      rintro rfl
      simpa using hfirst
    obtain ⟨line, hrun⟩ := run_argument (o := o) hc hmode hdepth hbefore
      (hend.imp fun _ h => ⟨mem_append_right text h.1, h.2⟩)
    have hbefore' : oddBackslashes (c :: before) = false :=
      @oddBackslashes_reverse_append [c] (by simp) (by simpa using hc.2.2.1) before
    obtain ⟨before', line', hlast, hrun'⟩ := ih (s := argueAll s [c] line) hrest hmode (fun front hfront => by
      have hlater := hopen (c :: front) (cons_prefix_cons.mpr ⟨rfl, hfront⟩)
      rw [← singleton_append, count_append, count_append] at hlater
      show _ < s.depth + [c].count '(' - [c].count ')' + _
      omega) hbefore'
    have hsame : argueAll (argueAll s [c] line) text line' = argueAll s ([c] ++ text) line' := by
      simp only [argueAll, foldl_append, count_append]
      congr 1
      omega
    exact ⟨before', line', hlast, by rw [cons_append, hrun, hrun', hsame, singleton_append]⟩

section Function

variable {returns : List Mode} {frames : List Frame} {origin : Keyword.AtBody} {property : String} {parts : Value.Parts}

/-- An opening parenthesis in a value starts the arguments of a function. -/
theorem next_paren (hmode : s.mode = .value) (hbefore : oddBackslashes before = false) (htail : tail ≠ []) :
    next o ⟨⟨before, '(' :: tail⟩, s⟩ = ⟨⟨'(' :: before, tail⟩,
      { s with function := s.part, part := s.part.push '(', depth := 1 }.pushMode .bracket .value⟩ := by
  have hescaped : Text.Cursor.escaped ⟨before, '(' :: tail⟩ = false := hbefore
  have htoken : Text.Cursor.atToken ⟨before, '(' :: tail⟩ = true := (atToken_eq hescaped rfl).trans (by decide)
  have hcomment : atComment ⟨before, '(' :: tail⟩ = false := atComment_eq_false rfl (by decide)
  refine next_of_alone (by simp [hmode]) ((step_value hmode _ _).trans ?_)
  simp [inValue, htail, htoken, hcomment]

/-- The parenthesis that closes the function goes back to the value around it. -/
theorem next_closingParen (hmode : s.mode = .bracket) (hreturns : s.returns = .value :: returns) (hdepth : s.depth = 1)
    (hbefore : oddBackslashes before = false) (tail : List Char) :
    next o ⟨⟨before, ')' :: tail⟩, s⟩ = ⟨⟨')' :: before, tail⟩,
      { s with function := "", part := argued s.part ')', depth := 0, mode := .value, returns }⟩ := by
  have hescaped : Text.Cursor.escaped ⟨before, ')' :: tail⟩ = false := hbefore
  have hpush : { s with depth := 0 }.pushArgument ')' = { s with depth := 0, part := argued s.part ')' } :=
    pushArgument_argued { s with depth := 0 } ')'
  refine next_of_alone (by simp [hmode]) ?_
  have hcount : s.countLine ')' = s := rfl
  rw [hcount, step, hmode]
  simp [inBracket, hescaped, isSpace, hdepth, hpush]
  simp [popMode, hreturns]

/-- **A function in a value** becomes part of a word. -/
theorem reads_value_function {text : String} (hplain : ∀ c ∈ text.toList, IsArgumentChar c)
    (hbalanced : Balanced text.toList) :
    Reads o tail { mode := .value, returns, frames, origin, property, parts } ("(" ++ text ++ ")")
      { mode := .value, returns, frames, origin, property
        parts := { parts with word := ("(" ++ text ++ ")").toList.foldl argued parts.word } } := by
  refine ⟨?_, fun s before hs hbefore => ?_⟩
  · simp only [String.toList_append, mem_append, not_or]
    exact ⟨⟨by decide, fun hmem => (hplain _ hmem).2.2.2 rfl⟩, by decide⟩
  have htext : ("(" ++ text ++ ")").toList = '(' :: (text.toList ++ [')']) := by simp [String.toList_append]
  have hparen : argued s.part '(' = s.part.push '(' := by simp [argued_of_not_isSpace, isSpace]
  generalize hopened : { s with function := s.part, part := s.part.push '(', depth := 1 }.pushMode .bracket .value = t
  have hmode : t.mode = .bracket := hopened ▸ rfl
  have hreturns : t.returns = .value :: returns := hopened ▸ congrArg _ hs.returns
  have hdepth : t.depth = 1 := hopened ▸ rfl
  have hbehind : oddBackslashes ('(' :: before) = false := rfl
  obtain ⟨before', line, hbefore', hrun⟩ := run_arguments (o := o) hplain hmode
    (fun front hfront => by have := hbalanced.opened front hfront; omega) hbehind (')' :: tail) ⟨')', by simp, by decide⟩
  have hclosed : (argueAll t text.toList line).depth = 1 := by
    show t.depth + text.toList.count '(' - text.toList.count ')' = 1
    rw [hbalanced.closed, hdepth]
    omega
  have hlast := next_closingParen (o := o) (s := argueAll t text.toList line) hmode hreturns hclosed hbefore' tail
  rw [htext, cons_append, append_assoc, singleton_append, ← run_next,
    next_paren hs.mode hbefore (by simp), hopened, hrun, ← run_next, hlast]
  refine ⟨_, _, ?_, ?_, rfl⟩
  · subst hopened
    refine ⟨rfl, rfl, hs.builds.congr rfl rfl, by simp, hs.selector, hs.property, ?_, hs.done, hs.headless⟩
    rw [foldl_cons, foldl_append, ← hs.word, hparen]
    rfl
  · rfl

end Function

/-! ## A rule with a function -/

/-- The name of a function. -/
def IsFunctionName (name : String) : Prop := name ≠ "" ∧ ∀ c ∈ name.toList, c.isAlpha = true ∨ c = '-'

instance (name : String) : Decidable (IsFunctionName name) :=
  decidable_of_iff (name ≠ "" ∧ name.toList.all (fun c => c.isAlpha || c == '-') = true) (by simp [IsFunctionName])

theorem IsFunctionName.isWord {name : String} (h : IsFunctionName name) : IsWord name := by
  have hname (c : Char) (hc : c ∈ name.toList) : isNameChar c = true := by
    rcases h.2 c hc with halpha | rfl
    · simp [isNameChar, Char.isAlphanum, halpha]
    · decide
  exact ⟨by simpa using h.1, fun c hc => isOrdinary_of_isNameChar (hname c hc),
    fun hmem => absurd (hname _ hmem) (by decide)⟩

/-- A function with its arguments. -/
def call (f t : String) : String := f ++ ("(" ++ t ++ ")")

variable {p f t : String}

theorem toList_call (f t : String) : (call f t).toList = f.toList ++ '(' :: (t.toList ++ [')']) := by
  simp [call, String.toList_append]

/-- A function has no space at its ends. -/
theorem trim_squeezed (hf : IsWord f) (t : String) : trim (squeezed (call f t)) = squeezed (call f t) := by
  apply trim_eq_self
  · obtain ⟨c, name, hname⟩ := exists_cons_of_ne_nil hf.ne_empty
    have hc : isOrdinary c = true := hf.ordinary c (hname ▸ mem_cons_self)
    have hspace := isSpace_of_isOrdinary hc
    intro d hd
    simp only [squeezed, toList_call, hname, cons_append, blankRuns_cons_of_not_isSpace hspace,
      dropBlanks_cons_of_ne (ne_of_isOrdinary hc (by decide)), String.toList_ofList, head?_cons] at hd
    rwa [← Option.some.inj hd]
  · intro d hd
    have hlast (part : String) : last? (argued part ')') = some ')' := by
      rw [argued_of_not_isSpace (by decide)]
      split <;> exact last?_push _ _
    rw [← foldl_argued_eq_squeezed, toList_call, ← cons_append, ← append_assoc, foldl_append] at hd
    rw [← Option.some.inj ((hlast _).symm.trans hd)]
    decide

/-- A function other than a format is no color and no number, so that it stays as it is. -/
theorem tidied_squeezed (hf : IsWord f) (hformat : f ≠ "format") (p t : String) :
    tidied p (squeezed (call f t)) = squeezed (call f t) := by
  have hkept := filter_squeezed (call f t)
  have hname : f.toList.filter (!isSpace ·) = f.toList :=
    filter_eq_self.mpr fun c hc => by simp [isSpace_of_isOrdinary (hf.ordinary c hc)]
  rw [toList_call, filter_append, hname, filter_cons_of_pos (by decide)] at hkept
  rcases tidyPart_cases {} p 0 (squeezed (call f t)) with hsame | ⟨hmeasure, -⟩ | hquote
  · exact hsame
  · have hparen : '(' ∈ (squeezed (call f t)).toList.filter (!isSpace ·) := by simp [hkept]
    exact absurd (hmeasure _ (mem_filter.mp hparen).1) (by decide)
  · have hnone : dropStart? (squeezed (call f t)) "format(" = none := by
      rw [dropStart?, if_neg]
      intro hstart
      obtain ⟨rest, hrest⟩ := isPrefixOf_iff_prefix.mp hstart
      -- both names end at the first parenthesis
      have hplain : ∀ c ∈ f.toList, (c != '(') = true := fun c hc => by
        simpa using ne_of_isOrdinary (hf.ordinary c hc) (by decide)
      rw [← hrest, filter_append] at hkept
      have htake := congrArg (takeWhile (· != '(')) hkept
      rw [takeWhile_append_of_pos hplain, takeWhile_cons_of_neg (by simp), append_nil] at htake
      exact hformat (String.toList_injective htake.symm)
    rw [quoteFormat?, hnone] at hquote
    cases hquote

/-- The part that a function makes up. -/
theorem reads_function (hf : IsWord f) (ht : ∀ c ∈ t.toList, IsArgumentChar c) (hbalanced : Balanced t.toList)
    (frames : List Frame) : Reads {} ['}', ' '] (.ruleValue p frames {}) (call f t)
      (.ruleValue p frames { word := squeezed (call f t) }) := by
  have hend : ∃ d ∈ ("(" ++ t ++ ")").toList ++ ['}', ' '], isOrdinary d = false := ⟨'}', by simp, by decide⟩
  have hname : f.toList.foldl argued "" = "" ++ f := by
    rw [foldl_argued_of_isOrdinary hf.ordinary, String.ofList_toList]
  rw [← foldl_argued_eq_squeezed, call, String.toList_append, foldl_append, hname]
  exact (reads_part_word (.inl rfl) hf hend).append (reads_value_function ht hbalanced)

/-- **The arguments of a function lose space only.** A rule with a function as its value has one declaration: the
function with as little space in it as there may be. Of the rest of the function nothing is lost. -/
theorem tree_read_function (p f t : String) (hp : Property.isKnown p = true) (hf : IsFunctionName f)
    (hformat : f ≠ "format") (ht : ∀ c ∈ t.toList, c ≠ '"' ∧ c ≠ '\'' ∧ c ≠ '\\' ∧ c ≠ '\r')
    (hbalanced : Balanced t.toList) :
    (Document.read {} (ruleText p (call f t))).1.tree = ruleTree p (squeezed (call f t)) ∧
      (squeezed (call f t)).toList.filter (!isSpace ·) = (call f t).toList.filter (!isSpace ·) := by
  have hkept := filter_squeezed (call f t)
  have hread := (tree_read_ruleText hp (reads_function hf.isWord ht hbalanced)).1
  have htrim := trim_squeezed hf.isWord t
  have htidied := tidied_squeezed hf.isWord hformat p t
  have hne : squeezed (call f t) ≠ "" := by
    intro hempty
    rw [hempty] at hkept
    simp [toList_call, isSpace] at hkept
  have hcut (part : String) : cutImportant [part] = ([part], false) := rfl
  rw [Value.Parts.all_of_trim_eq hne htrim, nil_append, declared_of_isKnown hp, hcut, map_singleton,
    joinParts_singleton, htidied, if_neg hne] at hread
  exact ⟨hread, hkept⟩

/-- Delimiters and comments among the arguments stay. -/
theorem tree_read_function_imageSet :
    (Document.read {} (ruleText "background" (call "image-set" " url( a;b\t\n) , 1x \x7d /* "))).1.tree =
        ruleTree "background" "image-set(url(a;b),1x \x7d /*)" := by
  have hchars : " url( a;b\t\n) , 1x \x7d /* ".toList.all (fun c => !(['"', '\'', '\\', '\r'].contains c)) = true := by
    decide
  have hsqueezed : squeezed (call "image-set" " url( a;b\t\n) , 1x \x7d /* ") =
      "image-set(url(a;b),1x \x7d /*)" := by
    decide +kernel
  have hread := (tree_read_function "background" "image-set" " url( a;b\t\n) , 1x \x7d /* " (by decide +kernel)
    (by decide +kernel) (by decide) (fun c hc => by simpa using all_eq_true.mp hchars c hc) (by decide +kernel)).1
  rwa [hsqueezed] at hread

end Stylesheet.Reader
