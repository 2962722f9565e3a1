import Stylesheet.Proofs.Reader.Alike
import Stylesheet.Proofs.Reader.Closing
import Stylesheet.Proofs.RoundTrip.Quotes

/-!
# A semicolon in front of a line break

The semicolon behind a declaration can be left out at the end of a line, if the next line starts with a property: the
line break ends the declaration then. `read_semicolon` shows that the same document is read as with the semicolon, unless
a backslash is dropped just in front of the line break.

The readers of both texts go the same way up to the semicolon, since nothing looks beyond the line break that would be
told apart by it (`Sees.of_inserted`). There the declaration ends in both, and behind the line break they are in the same
state, but for what they have said (`document_run_behind`).
-/

namespace Stylesheet

open List

namespace Text.Escape

variable {w tail : List Char}

/-- An escape that ends in front of a line break is read in the same way in front of a semicolon, unless it is a lone
backslash that is dropped. -/
theorem read_append_semicolon {drop : Bool} (hw : w ≠ []) (htaken : takenLength (w ++ '\n' :: tail) ≤ w.length)
    (hbare : drop = true → ∀ y, w = [y] → isSpace y = true → y = ' ') :
    read drop (w ++ ';' :: '\n' :: tail) = read drop (w ++ '\n' :: tail) := by
  have hline : '\n'.isHexDigit = false := by decide
  have hsemicolon : ';'.isHexDigit = false := by decide
  rcases Nat.lt_or_eq_of_le (length_digitsOf_le w) with hlt | heq
  · refine read_append_congr hsemicolon hline hlt fun hlone hdrop hend => ?_
    -- a lone backslash with all that is left behind it
    obtain ⟨hdigits, hhead⟩ := of_writtenText_eq hlone
    obtain ⟨y, rfl, hspace⟩ := eq_singleton_of_takenLength hw hdigits hend
    exact hhead (by rw [hbare hdrop y rfl hspace]; rfl)
  · have hdigits : digitsOf w = w := by rw [digitsOf_eq_take, heq, take_length]
    have htaken' : takenLength (w ++ ';' :: '\n' :: tail) = w.length := by
      rw [takenLength_of_digits hsemicolon hdigits, if_neg (by simp [isSpace])]
    have hsame : takenLength (w ++ '\n' :: tail) = w.length := by
      rw [takenLength_of_digits hline hdigits] at htaken ⊢
      split at htaken
      · omega
      · next hspace => rw [if_neg hspace]
    rw [read_of_digits drop hsemicolon hw hdigits, read_of_digits drop hline hw hdigits, htaken', hsame]

end Text.Escape

namespace Reader

open Text State

variable {t : State} {r : Reader}
variable {o : Options} {s : State} {before w tail : List Char} {c : Char}

/-! ## Properties behind a line break -/

/-- A character that the name of a property is looked for in. -/
def isNamePart (c : Char) : Bool := c != ':' && c != ';' && c != '{' && c != '}'

theorem propertyFollows_eq (text : List Char) :
    propertyFollows text
      = ((text.drop (text.takeWhile isNamePart).length).head? == some ':' &&
          Property.isKnown (lower (trim (String.ofList (text.takeWhile isNamePart))))) :=
  rfl

/-- What comes behind the end of the name is not looked at. -/
theorem propertyFollows_of_stop (h : ∃ c ∈ w, isNamePart c = false) (x y : List Char) :
    propertyFollows (w ++ x) = propertyFollows (w ++ y) := by
  have hlt : (w.takeWhile isNamePart).length < w.length := by
    refine Nat.lt_of_le_of_ne (List.takeWhile_prefix _).length_le fun hall => ?_
    obtain ⟨c, hc, hstop⟩ := h
    rw [← (List.takeWhile_prefix isNamePart).eq_of_length hall] at hc
    simp [mem_takeWhile_imp hc] at hstop
  have hname (x : List Char) : (w ++ x).takeWhile isNamePart = w.takeWhile isNamePart := by
    rw [takeWhile_append, if_neg hlt.ne]
  rw [propertyFollows_eq, propertyFollows_eq, hname, hname, head?_drop_append hlt, head?_drop_append hlt]

/-- A semicolon comes before the colon. -/
theorem propertyFollows_semicolon (h : ∀ c ∈ w, isNamePart c = true) (x : List Char) :
    propertyFollows (w ++ ';' :: x) = false := by
  rw [propertyFollows_eq, takeWhile_append_cons (by decide), takeWhile_eq_self_iff.mpr h, drop_left]
  rfl

theorem not_isKnown_of_spaces {name : List Char} (h : ∀ c ∈ name, isSpace c = true) :
    Property.isKnown (lower (trim (String.ofList name))) = false := by
  have htrim : trim (String.ofList name) = "" := by
    rw [trim, String.toList_ofList, trimBoth, dropWhile_eq_nil_iff.mpr h]
    rfl
  rw [htrim]
  decide +kernel

/-- There is no line break in the name of a property. -/
theorem newline_notMem_of_isKnown {name : List Char}
    (h : Property.isKnown (lower (trim (String.ofList name))) = true) : '\n' ∉ trimBoth isSpace name := by
  intro hmem
  have hlower : '\n' ∈ (lower (trim (String.ofList name))).toList := by
    rw [lower, trim, String.toList_ofList, String.toList_ofList, String.toList_ofList]
    exact mem_map.mpr ⟨'\n', hmem, rfl⟩
  exact absurd ((chars_of_isKnown h).2 _ hlower) (by decide)

/-- Two line breaks in front of a property have nothing but space between them, if no declaration ends there. -/
theorem isSpace_of_propertyFollows (h : ∀ c ∈ w, isNamePart c = true) (htail : propertyFollows tail = true)
    (hfollows : propertyFollows (w ++ '\n' :: tail) = true) : ∀ c ∈ w, isSpace c = true := by
  have hname : (w ++ '\n' :: tail).takeWhile isNamePart = w ++ '\n' :: tail.takeWhile isNamePart := by
    rw [takeWhile_append_of_pos h, takeWhile_cons_of_pos rfl]
  rw [propertyFollows_eq, Bool.and_eq_true] at htail hfollows
  rw [hname] at hfollows
  generalize tail.takeWhile isNamePart = name at htail hfollows
  have hline := newline_notMem_of_isKnown hfollows.2
  obtain ⟨left, right, heq, hleft, hright⟩ := exists_trimBoth isSpace (w ++ '\n' :: name)
  generalize trimBoth isSpace (w ++ '\n' :: name) = mid at hline heq
  -- the name of the property stands behind the line break, so that this is no space at its end
  have hmid : ∀ front, mid ++ right ≠ front ++ '\n' :: name := by
    intro front hcut
    have hspaces : ∀ c ∈ name, c ∈ right := by
      intro c hc
      rcases append_eq_append_iff.mp hcut with ⟨more, -, rfl⟩ | ⟨more, rfl, hmore⟩
      · exact mem_append_right _ (mem_cons_of_mem _ hc)
      · cases more with
        | nil =>
          rw [nil_append] at hmore
          exact hmore ▸ mem_cons_of_mem _ hc
        | cons d more =>
          cases hmore
          simp at hline
    exact absurd htail.2 (by simp [not_isKnown_of_spaces fun c hc => hright c (hspaces c hc)])
  rw [append_assoc] at heq
  rcases append_eq_append_iff.mp heq with ⟨more, rfl, -⟩ | ⟨more, rfl, hmore⟩
  · exact fun c hc => hleft c (mem_append_left _ hc)
  · exact absurd hmore (hmid more)

/-! ## Comments -/

/-- A comment that ends inside of a text ends there whatever comes behind it. -/
theorem cutComment?_of_append {v x text : List Char} (h : cutComment? (v ++ x) = some text)
    (hlength : text.length + 2 ≤ v.length) : cutComment? v = some text := by
  fun_induction cutComment? v generalizing text with
  | case1 => simp at hlength
  | case2 => simpa [cutComment?] using h
  | case3 c v hc ih =>
    cases v with
    | nil => simp at hlength
    | cons d v =>
      have hnot : ∀ more, c = '*' → d :: v ++ x = '/' :: more → False := by
        rintro more hstar hslash
        exact hc v hstar (by rw [(cons.inj hslash).1])
      rw [cons_append, cutComment?] at h
      · obtain ⟨inner, hinner, rfl⟩ := Option.map_eq_some_iff.mp h
        simp only [length_cons] at hlength
        rw [ih hinner (by simp only [length_cons]; omega), Option.map_some]
      · exact hnot

/-- A step at a comment reads the comment, in all modes alike. -/
theorem step_of_atComment {k : Cursor} (hstring : s.mode ≠ .string) (hbracket : s.mode ≠ .bracket)
    (htoken : k.atToken = true) (hcomment : State.atComment k = true) (hmore : k.rest.tail ≠ []) :
    s.step o k '/' = s.readComment o k := by
  unfold step
  cases hmode : s.mode with
  | string => exact absurd hmode hstring
  | bracket => exact absurd hmode hbracket
  | selector => simp [inSelector, htoken, hcomment]
  | property => simp [inProperty, htoken, hcomment]
  | value => simp [inValue, htoken, hcomment, hmore]
  | atRule => simp [inAtRule, htoken, hcomment]

theorem colonFirst_semicolon (escaped : Bool) (w tail : List Char) :
    colonFirst escaped (w ++ ';' :: '\n' :: tail) = colonFirst escaped (w ++ '\n' :: tail) := by
  induction w generalizing escaped with
  | nil => simp [colonFirst]
  | cons c w ih => rw [cons_append, colonFirst, ih, cons_append, colonFirst]

theorem commentAt_semicolon (hcomment : State.atComment ⟨before, c :: w ++ '\n' :: tail⟩ = true) (htail : tail ≠ [])
    (hle : (commentAt ⟨before, c :: w ++ '\n' :: tail⟩).2 ≤ w.length) :
    commentAt ⟨before, c :: w ++ ';' :: '\n' :: tail⟩ = commentAt ⟨before, c :: w ++ '\n' :: tail⟩ := by
  cases w with
  | nil => simp [State.atComment] at hcomment
  | cons d w =>
    simp only [commentAt, cons_append, drop_succ_cons, drop_zero] at hle ⊢
    cases hcut : cutComment? (w ++ '\n' :: tail) with
    | none =>
      -- a comment without an end goes beyond the line break
      have hpos := length_pos_of_ne_nil htail
      simp only [hcut, length_dropLast, length_append, length_cons] at hle
      omega
    | some text =>
      simp only [hcut, length_cons] at hle
      have hinside := cutComment?_of_append hcut (by omega)
      rw [cutComment?_append hinside]

/-! ## Steps in front of the semicolon -/

/-- The reader has passed no more than the text in front of the line break. -/
theorem le_of_next {n : Nat}
    (hlength : tail.length < (Reader.next o ⟨⟨before, c :: w ++ '\n' :: tail⟩, s⟩).cursor.rest.length)
    (hnext : Reader.next o ⟨⟨before, c :: w ++ '\n' :: tail⟩, s⟩
      = ⟨Cursor.advance ⟨before, c :: w ++ '\n' :: tail⟩ (n + 1), t⟩) : n ≤ w.length := by
  rw [hnext] at hlength
  simp only [Cursor.advance, length_drop, length_append, length_cons] at hlength
  omega

/-- A step that ends in front of the line break does not see the semicolon there. -/
theorem Sees.of_inserted (hfollows : propertyFollows tail = true)
    (hlength : tail.length < (Reader.next o ⟨⟨before, c :: w ++ '\n' :: tail⟩, s⟩).cursor.rest.length)
    (hescape : atEscape ⟨⟨before, c :: w ++ '\n' :: tail⟩, s⟩ →
      w ≠ [] ∧ (o.removeBackslash = true → ∀ y, w = [y] → isSpace y = true → y = ' '))
    (hspace : s.mode = .value → c = '\n' → propertyFollows (w ++ '\n' :: tail) = true →
      ∃ d ∈ w, isSpace d = false) :
    Sees o s ⟨before, c :: w ++ ';' :: '\n' :: tail⟩ ⟨before, c :: w ++ '\n' :: tail⟩ := by
  have htail : tail ≠ [] := by
    rintro rfl
    exact absurd hfollows (by decide +kernel)
  refine
    { escaped := rfl
      equals := rfl
      head := rfl
      last := by cases w <;> rfl
      run := ?run
      atComment := ?atComment
      comment := fun hstring hbracket htoken hat => ?comment
      escape := fun hstring hbracket htoken hhead => ?escape
      property := fun hmode hhead => ?property
      second := fun _ => by cases w <;> rfl
      body := fun _ _ _ => ?body }
  case run =>
    rw [Cursor.ordinaryRun, Cursor.ordinaryRun, takeWhile_append_cons (by decide),
      takeWhile_append_cons (by decide)]
  case atComment => cases w <;> simp [State.atComment]
  case comment =>
    obtain ⟨body, hbody⟩ := exists_body hat
    obtain rfl : c = '/' := (cons.inj hbody).1
    have hnext := next_of_cons (o := o) (r := ⟨⟨before, '/' :: w ++ '\n' :: tail⟩, s⟩) rfl (by simp [atSharedBrace])
    have hline : s.countLine '/' = s := rfl
    rw [hline, step_of_atComment hstring hbracket htoken hat (by simp), readComment_eq_addComment] at hnext
    exact commentAt_semicolon hat htail (le_of_next hlength hnext)
  case escape =>
    have hat : atEscape ⟨⟨before, c :: w ++ '\n' :: tail⟩, s⟩ := ⟨hstring, hbracket, htoken, hhead⟩
    have hle := le_of_next hlength (next_of_atEscape hat (by simp))
    have htaken : Text.Escape.takenLength (w ++ '\n' :: tail) ≤ w.length := by
      rw [← Text.Escape.length_read o.removeBackslash]
      exact hle
    exact Text.Escape.read_append_semicolon (hescape hat).1 htaken (hescape hat).2
  case property =>
    have hc : c = '\n' := by simpa using hhead
    by_cases hstop : ∃ d ∈ w, isNamePart d = false
    · exact propertyFollows_of_stop hstop _ _
    · have hall : ∀ d ∈ w, isNamePart d = true := by simpa using hstop
      refine (propertyFollows_semicolon hall _).trans (Eq.symm (Bool.eq_false_iff.mpr fun hproperty => ?_))
      obtain ⟨d, hd, hnot⟩ := hspace hmode hc hproperty
      simp [isSpace_of_propertyFollows hall hfollows hproperty d hd] at hnot
  case body =>
    show bodyOf _ (w ++ ';' :: '\n' :: tail) = bodyOf _ (w ++ '\n' :: tail)
    rw [bodyOf, colonFirst_semicolon, bodyOf]

/-! ## Space in front of a property -/

/-- In front of the name of a property space is passed and nothing else is done. -/
theorem iterate_spaces (hmode : r.state.mode = .property) (hrest : r.cursor.rest = w ++ tail)
    (hspace : ∀ c ∈ w, isSpace c = true) {j : Nat} (hj : j ≤ w.length) :
    ((next o)^[j] r).state.mode = .property ∧ ((next o)^[j] r).cursor.rest = w.drop j ++ tail := by
  induction j with
  | zero => exact ⟨hmode, hrest⟩
  | succ j ih =>
    obtain ⟨hmode, hrest⟩ := ih (Nat.le_of_succ_le hj)
    rw [Function.iterate_succ_apply']
    generalize (next o)^[j] r = r at hmode hrest
    rw [drop_eq_getElem_cons hj] at hrest
    have hc : isSpace w[j] = true := hspace _ (getElem_mem hj)
    generalize w[j] = c at hrest hc
    have htoken : r.cursor.atToken = false := by simp [Cursor.atToken, hrest, isTokenChar_of_isSpace hc]
    obtain ⟨line, hline⟩ := r.state.countLine_eq c
    have hstep : (r.state.countLine c).step o r.cursor c = (r.state.countLine c, 0) := by
      rw [hline, step, hmode]
      simp [inProperty, htoken, hc]
    rw [next_of_cons hrest (by simp [atSharedBrace, hmode]), hstep, hline]
    exact ⟨hmode, by simp [Cursor.advance, hrest]⟩

/-! ## The end of the declaration -/

/-- The reader is at a line break that ends a declaration, since a property follows. -/
def atInferredEnd (r : Reader) : Bool :=
  r.state.mode = .value && r.cursor.rest.head? == some '\n' && propertyFollows (r.cursor.rest.drop 1)

theorem atInferredEnd_iff :
    r.atInferredEnd = true ↔ r.state.mode = .value ∧ ∃ tail, r.cursor.rest = '\n' :: tail ∧
      propertyFollows tail = true := by
  simp only [atInferredEnd, Bool.and_eq_true, decide_eq_true_eq, beq_iff_eq, and_assoc]
  refine and_congr_right fun _ => ⟨fun ⟨hhead, hfollows⟩ => ?_, ?_⟩
  · obtain ⟨tail, hrest⟩ := head?_eq_some_iff.mp hhead
    exact ⟨tail, hrest, by simpa [hrest] using hfollows⟩
  · rintro ⟨tail, hrest, hfollows⟩
    exact ⟨by rw [hrest]; rfl, by simpa [hrest] using hfollows⟩

/-- What is left behind a declaration. -/
def State.declarationEnd (o : Options) (s : State) : State := (s.popMode .property).endDeclaration o

theorem Alike.declarationEnd (h : Alike Same s t) (o : Options) :
    Alike Same (s.declarationEnd o) (t.declarationEnd o) :=
  (h.popMode .property (by decide)).endDeclaration (lasting_same o)

/-- A line that is counted in one of the states only. -/
theorem Alike.countFirst (h : Alike Same s t) (c : Char) : Alike Same (s.countLine c) t := by
  obtain ⟨line, heq⟩ := s.countLine_eq c
  rw [heq]
  exact { h with }

/-- A warning about a line that is given in one of the states only. -/
theorem Alike.warnLine (h : Alike Same s t) (c : Char) (text : String) : Alike Same s ((t.countLine c).warn text) := by
  obtain ⟨line, heq⟩ := t.countLine_eq c
  rw [heq]
  exact { h with }

/-- Behind a declaration the name of a property is read. -/
theorem mode_declarationEnd (h : s.returns.head? = some .property) : (s.declarationEnd o).mode = .property := by
  rw [declarationEnd, (endDeclaration_keeps o _).1, popMode_eq, h]
  rfl

/-- A line break that ends a declaration. -/
theorem next_of_atInferredEnd (h : r.atInferredEnd = true) :
    r.next o = ⟨r.cursor.advance 1, declarationEnd o
      ((r.state.countLine '\n').warn "Added semicolon to the end of declaration")⟩ := by
  obtain ⟨hmode, tail, hrest, hfollows⟩ := atInferredEnd_iff.mp h
  have htail : tail ≠ [] := by
    rintro rfl
    exact absurd hfollows (by decide +kernel)
  obtain ⟨line, hline⟩ := r.state.countLine_eq '\n'
  rw [next_of_cons hrest (by simp [atSharedBrace, hmode]), hline, step, hmode]
  simp [inValue, hrest, htail, hfollows, declarationEnd]

/-- A semicolon ends a declaration as well, and the line break behind it is passed. -/
theorem next_next_of_semicolon (hmode : s.mode = .value) (hreturns : s.returns.head? = some .property)
    (hfree : oddBackslashes before = false) (tail : List Char) :
    Reader.next o (Reader.next o ⟨⟨before, ';' :: '\n' :: tail⟩, s⟩)
      = ⟨⟨'\n' :: ';' :: before, tail⟩, (s.declarationEnd o).countLine '\n'⟩ := by
  have htoken : Cursor.atToken ⟨before, ';' :: '\n' :: tail⟩ = true := by
    rw [Cursor.atToken, Cursor.escaped, hfree]
    rfl
  have hcomment : State.atComment ⟨before, ';' :: '\n' :: tail⟩ = false := rfl
  have hline : s.countLine ';' = s := rfl
  have hstep : (s.countLine ';').step o ⟨before, ';' :: '\n' :: tail⟩ ';' = (s.declarationEnd o, 0) := by
    rw [hline, step, hmode]
    simp [inValue, htoken, hcomment, declarationEnd]
  have hmode' := mode_declarationEnd (o := o) hreturns
  rw [next_of_alone (by simp [hmode]) hstep]
  generalize s.declarationEnd o = t at hmode'
  refine next_of_alone (by simp [hmode']) ?_
  obtain ⟨line, hline⟩ := t.countLine_eq '\n'
  have htoken : Cursor.atToken ⟨';' :: before, '\n' :: tail⟩ = false := rfl
  rw [hline, step, hmode']
  simp [inProperty, htoken, isSpace]

/-! ## Behind the line break -/

/-- Behind a line break nothing is seen of what stands in front of it. -/
theorem Sees.of_line (o : Options) (s : State) (x front front' rest : List Char) :
    Sees o s ⟨x ++ '\n' :: front, rest⟩ ⟨x ++ '\n' :: front', rest⟩ :=
  { escaped := by
      have hline (front : List Char) : oddBackslashes (x ++ '\n' :: front) = oddBackslashes x :=
        oddBackslashes_append (by simp) x
      exact (hline front).trans (hline front').symm
    equals := by cases x <;> rfl
    head := rfl
    last := rfl
    run := rfl
    atComment := rfl
    comment := fun _ _ _ _ => rfl
    escape := fun _ _ _ _ => rfl
    property := fun _ _ => rfl
    second := fun _ => rfl
    body := fun _ _ _ => rfl }

/-- Readers behind a line break that differ in what they have said go the same way. -/
theorem iterate_line {r' : Reader} {front front' rest : List Char} (hcursor : r.cursor = ⟨'\n' :: front, rest⟩)
    (hcursor' : r'.cursor = ⟨'\n' :: front', rest⟩) (h : Alike Same r.state r'.state) (j : Nat) :
    ∃ x rest, ((next o)^[j] r).cursor = ⟨x ++ '\n' :: front, rest⟩ ∧
      ((next o)^[j] r').cursor = ⟨x ++ '\n' :: front', rest⟩ ∧
      Alike Same ((next o)^[j] r).state ((next o)^[j] r').state := by
  induction j with
  | zero => exact ⟨[], rest, hcursor, hcursor', h⟩
  | succ j ih =>
    obtain ⟨x, rest, hcursor, hcursor', h⟩ := ih
    rw [Function.iterate_succ_apply', Function.iterate_succ_apply']
    by_cases hrest : rest = []
    · rw [next_of_nil (by rw [hcursor, hrest]), next_of_nil (by rw [hcursor', hrest])]
      exact ⟨x, rest, hcursor, hcursor', h⟩
    · have hsees : Sees o ((next o)^[j] r').state ((next o)^[j] r).cursor ((next o)^[j] r').cursor := by
        rw [hcursor, hcursor']
        exact .of_line o _ x front front' rest
      obtain ⟨n, hnext, hnext', hstate⟩ := next_alike (lasting_same o) h hsees (by rwa [hcursor'])
      refine ⟨(rest.take n).reverse ++ x, rest.drop n, ?_, ?_, hstate⟩
      · rw [hnext, hcursor, Cursor.advance, append_assoc]
      · rw [hnext', hcursor', Cursor.advance, append_assoc]

/-- The same document comes of what is read behind the line break. -/
theorem document_run_behind {r' : Reader} {front front' rest : List Char} (hcursor : r.cursor = ⟨'\n' :: front, rest⟩)
    (hcursor' : r'.cursor = ⟨'\n' :: front', rest⟩) (h : Alike Same r.state r'.state) :
    ((run o r).state.finish o).document = ((run o r').state.finish o).document := by
  obtain ⟨j, hj⟩ := run_eq_iterate o r'
  obtain ⟨x, rest, hlast, hlast', hstate⟩ := iterate_line (o := o) hcursor hcursor' h j
  have hrest : rest = [] := by
    have hend := run_rest o r'
    rwa [hj, hlast'] at hend
  have hrun : run o r = (next o)^[j] r := by rw [← run_iterate o r j, run_of_nil (by rw [hlast, hrest])]
  rw [hj, hrun]
  exact (finish_alike (lasting_same o) hstate).document.1

/-! ## Whole texts -/

/-- The text ends in a free backslash and one space behind it that is no blank. -/
def endsBare (text : List Char) : Bool :=
  match text.reverse with
  | y :: '\\' :: before => isSpace y && y != ' ' && !oddBackslashes before
  | _ => false

/-- A text in two parts. The line break that the second part starts with ends a declaration, since a property follows, and
there is no backslash in front of it. -/
structure EndsLine (o : Options) (front back : String) : Prop where
  joint : front.toList.getLast? ≠ some '\r' ∨ back.toList.head? ≠ some '\n'
  backslash : front.toList.getLast? ≠ some '\\'
  ends : ∃ n, (after o (front ++ back) n).cursor.before = (unifyLines front.toList).reverse ∧
    (after o (front ++ back) n).atInferredEnd = true

variable {front back : String} {n : Nat}

theorem sourceText_semicolon (front back : String) :
    sourceText (front ++ ";" ++ back) = unifyLines front.toList ++ ';' :: sourceText back := by
  have hunify : unifyLines [';'] = [';'] := rfl
  have hlast : (front ++ ";").toList.getLast? ≠ some '\r' := by
    rw [String.toList_append, getLast?_append]
    exact (by decide : some ';' ≠ some '\r')
  rw [sourceText_append_of_joint (.inl hlast), String.toList_append, unifyLines_append (.inr (by decide)),
    append_assoc]
  rfl

/-- A text that does not end in a backslash. -/
theorem oddBackslashes_of_getLast? (h : front.toList.getLast? ≠ some '\\') :
    oddBackslashes (unifyLines front.toList).reverse = false := by
  rw [oddBackslashes_unifyLines]
  cases hback : front.toList.reverse with
  | nil => rfl
  | cons c more =>
    have hlast : front.toList.getLast? = some c := by rw [getLast?_eq_head?_reverse, hback, head?_cons]
    have hc : c ≠ '\\' := fun hc => h (hc ▸ hlast)
    rw [oddBackslashes_cons, beq_eq_false_iff_ne.mpr hc, Bool.false_and]

/-- The last escape in front of the line break is no backslash that could be dropped. -/
theorem escape_of_endsBare (hbackslash : front.toList.getLast? ≠ some '\\')
    (hbare : o.removeBackslash = true → endsBare (unifyLines front.toList) = false)
    (htext : unifyLines front.toList = before.reverse ++ c :: w)
    (hat : atEscape ⟨⟨before, c :: w ++ '\n' :: tail⟩, s⟩) :
    w ≠ [] ∧ (o.removeBackslash = true → ∀ y, w = [y] → isSpace y = true → y = ' ') := by
  obtain rfl : c = '\\' := by simpa using hat.2.2.2
  have hfree : oddBackslashes before = false := by
    have htoken := hat.2.2.1
    rw [Cursor.atToken, Cursor.escaped] at htoken
    simpa using (Bool.and_eq_true_iff.mp htoken).2
  have hreverse : (unifyLines front.toList).reverse = w.reverse ++ '\\' :: before := by simp [htext]
  refine ⟨?_, ?_⟩
  · rintro rfl
    have hodd := oddBackslashes_of_getLast? hbackslash
    rw [hreverse, reverse_nil, nil_append, oddBackslashes_cons, hfree] at hodd
    exact absurd hodd (by decide)
  · rintro hdrop y rfl hspace
    have hends := hbare hdrop
    rw [endsBare, hreverse] at hends
    simpa [hspace, hfree] using hends

/-- No declaration ends earlier in front of the property, if only space stands in between. -/
theorem exists_not_space {m : Nat} {css : String} (hm : m < n) (hvalue : (after o css n).state.mode = .value)
    (hrest : (after o css n).cursor.rest = '\n' :: tail)
    (hline : (after o css m).cursor.rest = '\n' :: (w ++ '\n' :: tail)) (hmode : (after o css m).state.mode = .value)
    (hfollows : propertyFollows (w ++ '\n' :: tail) = true) : ∃ d ∈ w, isSpace d = false := by
  by_contra hnone
  have hspace : ∀ d ∈ w ++ ['\n'], isSpace d = true := by
    intro d hd
    rcases mem_append.mp hd with hd | hd
    · simpa using fun hfalse => hnone ⟨d, hd, hfalse⟩
    · rw [mem_singleton.mp hd]
      rfl
  -- the declaration ends at the first line break, and space is passed from there on
  have htracked := Trail.after_tracked o css m
  rw [Trail.reader_after] at htracked
  have hnext := next_of_atInferredEnd (o := o) (atInferredEnd_iff.mpr ⟨hmode, _, hline, hfollows⟩)
  have hended := mode_declarationEnd (o := o)
    (s := ((after o css m).state.countLine '\n').warn "Added semicolon to the end of declaration") (by
      obtain ⟨line, heq⟩ := (after o css m).state.countLine_eq '\n'
      rw [heq]
      exact htracked.returns_of_value hmode)
  generalize declarationEnd o _ = t at hnext hended
  have hproperty : ((after o css m).next o).state.mode = .property := by rw [hnext]; exact hended
  have hpassed : ((after o css m).next o).cursor.rest = (w ++ ['\n']) ++ tail := by
    rw [hnext]
    simp [Cursor.advance, hline]
  obtain ⟨j, rfl⟩ := Nat.exists_eq_add_of_le' (Nat.succ_le_of_lt hm)
  by_cases hj : j ≤ (w ++ ['\n']).length
  · have hstill := (iterate_spaces (o := o) hproperty hpassed hspace hj).1
    rw [← after_succ, ← after_add] at hstill
    simp [hstill] at hvalue
  · have hgone := (iterate_spaces (o := o) hproperty hpassed hspace le_rfl).2
    rw [← after_succ, ← after_add, drop_length, nil_append] at hgone
    have hle := length_rest_antitone o css (Nat.add_le_add_right (Nat.le_of_not_le hj) (m + 1))
    simp only [Nat.succ_eq_add_one] at hrest
    simp only [hgone, hrest, length_cons] at hle
    omega

/-- Up to the line break both readers go the same way. -/
theorem inside_semicolon (hjoint : front.toList.getLast? ≠ some '\r' ∨ back.toList.head? ≠ some '\n')
    (hbackslash : front.toList.getLast? ≠ some '\\')
    (hbare : o.removeBackslash = true → endsBare (unifyLines front.toList) = false)
    (hback : sourceText back = '\n' :: tail) (hfollows : propertyFollows tail = true)
    (hvalue : (after o (front ++ back) n).state.mode = .value)
    (hrest : (after o (front ++ back) n).cursor.rest = '\n' :: tail) {m : Nat} (hm : m ≤ n) :
    ∃ before v, (after o (front ++ back) m).cursor = ⟨before, v ++ '\n' :: tail⟩ ∧
      (after o (front ++ ";" ++ back) m).cursor = ⟨before, v ++ ';' :: '\n' :: tail⟩ ∧
      Alike Same (after o (front ++ ";" ++ back) m).state (after o (front ++ back) m).state := by
  induction m with
  | zero =>
    refine ⟨[], unifyLines front.toList, ?_, ?_, .refl _⟩
    · rw [after_zero, start, sourceText_append_of_joint hjoint, hback, Cursor.start]
    · rw [after_zero, start, sourceText_semicolon, hback, Cursor.start]
  | succ m ih =>
    obtain ⟨before, v, hcursor, hcursor', hstate⟩ := ih (Nat.le_of_succ_le hm)
    -- the line break is not passed before the end
    have hlength : tail.length < (after o (front ++ back) (m + 1)).cursor.rest.length := by
      have hle := length_rest_antitone o (front ++ back) hm
      simp only [hrest, length_cons] at hle
      exact hle
    cases v with
    | nil =>
      have hcons : (after o (front ++ back) m).cursor.rest = '\n' :: tail := by rw [hcursor]; rfl
      have hshared : (after o (front ++ back) m).atSharedBrace = false := by simp [atSharedBrace, hcons]
      rw [after_succ, next_of_cons hcons hshared, Cursor.advance, hcons, drop_succ_cons, length_drop] at hlength
      omega
    | cons c w =>
      have htext : unifyLines front.toList = before.reverse ++ c :: w := by
        have htext := text_after o (front ++ back) m
        rw [hcursor, Cursor.text, sourceText_append_of_joint hjoint, hback, ← append_assoc] at htext
        exact (append_cancel_right htext).symm
      have hsees : Sees o (after o (front ++ back) m).state (after o (front ++ ";" ++ back) m).cursor
          (after o (front ++ back) m).cursor := by
        rw [hcursor, hcursor']
        refine .of_inserted hfollows ?_ (escape_of_endsBare hbackslash hbare htext) fun hmode hc hproperty => ?_
        · rw [after_succ] at hlength
          rw [← hcursor]
          exact hlength
        · refine exists_not_space (Nat.lt_of_succ_le hm) hvalue hrest ?_ hmode hproperty
          rw [hcursor, hc, cons_append]
      obtain ⟨taken, hnext', hnext, hstate⟩ := next_alike (lasting_same o) hstate hsees (by simp [hcursor])
      rw [← after_succ, hcursor] at hnext
      rw [← after_succ, hcursor'] at hnext'
      rw [← after_succ, ← after_succ] at hstate
      have htaken : taken ≤ (c :: w).length := by
        simp only [hnext, Cursor.advance, length_drop, length_append, length_cons] at hlength ⊢
        omega
      rw [advance_append htaken] at hnext hnext'
      exact ⟨_, _, hnext, hnext', hstate⟩

/-- **A semicolon that is left out** at the end of a line makes no difference for the document, unless a lone backslash
is dropped just in front of the line break. -/
theorem read_semicolon (h : EndsLine o front back)
    (hbare : o.removeBackslash = true → endsBare (unifyLines front.toList) = false) :
    (Document.read o (front ++ ";" ++ back)).1 = (Document.read o (front ++ back)).1 := by
  obtain ⟨n, hplace, hends⟩ := h.ends
  obtain ⟨hvalue, tail, hrest, hfollows⟩ := atInferredEnd_iff.mp hends
  have hback : sourceText back = '\n' :: tail := by
    have htext := text_after o (front ++ back) n
    rw [Cursor.text, hplace, hrest, List.reverse_reverse, sourceText_append_of_joint h.joint] at htext
    exact (List.append_cancel_left htext).symm
  obtain ⟨before, v, hcursor, hcursor', hstate⟩ :=
    inside_semicolon h.joint h.backslash hbare hback hfollows hvalue hrest le_rfl
  have hv : v = [] := by
    rw [hcursor] at hrest
    simpa using congrArg List.length hrest
  subst hv
  have hfree : oddBackslashes before = false := by
    have hfree := oddBackslashes_of_getLast? h.backslash
    rwa [← hplace, hcursor] at hfree
  have hvalue' := hstate.mode.trans hvalue
  have htracked := Trail.after_tracked o (front ++ ";" ++ back) n
  rw [Trail.reader_after] at htracked
  -- the declaration ends in both texts, and both readers are behind the line break then
  have hnext := next_of_atInferredEnd (o := o) hends
  have hnext' := next_next_of_semicolon (o := o) hvalue' (htracked.returns_of_value hvalue') hfree tail
  have hended := (hstate.warnLine '\n' "Added semicolon to the end of declaration").declarationEnd o |>.countFirst '\n'
  have hafter : after o (front ++ ";" ++ back) n
      = ⟨⟨before, ';' :: '\n' :: tail⟩, (after o (front ++ ";" ++ back) n).state⟩ := by
    rw [List.nil_append] at hcursor'
    rw [← hcursor']
  rw [← hafter] at hnext'
  rw [hcursor] at hnext
  generalize (State.declarationEnd o _).countLine '\n' = t' at hnext' hended
  generalize State.declarationEnd o _ = t at hnext hended
  have hdocument : ((run o ⟨⟨'\n' :: ';' :: before, tail⟩, t'⟩).state.finish o).document
      = ((run o ⟨⟨'\n' :: before, tail⟩, t⟩).state.finish o).document := document_run_behind rfl rfl hended
  have hrun : run o (start (front ++ back)) = run o ⟨⟨'\n' :: before, tail⟩, t⟩ := by
    rw [← run_after o (front ++ back) n, ← run_next, hnext]
    rfl
  have hrun' : run o (start (front ++ ";" ++ back)) = run o ⟨⟨'\n' :: ';' :: before, tail⟩, t'⟩ := by
    rw [← run_after o (front ++ ";" ++ back) n, ← run_next, ← run_next, hnext']
  unfold Document.read
  rw [hrun, hrun']
  exact hdocument

/-- A value that goes on over a line break, in a block whose name does not tell what it holds. -/
def marginsInBlock : String := "@x\x7bmargin:0\n1px\\9 "

/-- A line that starts with a property. -/
def topLine : String := "\ntop:0\x7d"

theorem endsLine_marginsInBlock : EndsLine {} marginsInBlock topLine where
  joint := .inl (by decide +kernel)
  backslash := by decide +kernel
  ends := ⟨9, by decide +kernel⟩

theorem read_semicolon_marginsInBlock :
    EndsLine {} marginsInBlock topLine ∧
      (Document.read {} (marginsInBlock ++ ";" ++ topLine)).1 = (Document.read {} (marginsInBlock ++ topLine)).1 :=
  ⟨endsLine_marginsInBlock, read_semicolon endsLine_marginsInBlock fun _ => by decide +kernel⟩

/-- A value that ends in a lone backslash, with a tabulator behind it. -/
def tabbedBackslash : String := "a\x7bcolor:red\\\t"

/-- **A semicolon keeps the backslash** that is dropped in front of a line break: there is a token then behind the space
that ends the escape. -/
theorem read_semicolon_tabbedBackslash :
    EndsLine {} tabbedBackslash topLine ∧
      (Document.read {} (tabbedBackslash ++ ";" ++ topLine)).1 ≠ (Document.read {} (tabbedBackslash ++ topLine)).1 := by
  refine ⟨⟨.inl (by decide +kernel), by decide +kernel, 6, by decide +kernel⟩, fun heq => ?_⟩
  have hdropped := read_view (fun d => (d.get? ⟨1⟩).map (·.declarations.entries)) {} (tabbedBackslash ++ topLine) 12
    (by decide +kernel) (by decide +kernel : _ = some [("color", ⟨"red", false⟩), ("top", ⟨"0", false⟩)])
  have hkept := read_view (fun d => (d.get? ⟨1⟩).map (·.declarations.entries)) {} (tabbedBackslash ++ ";" ++ topLine) 14
    (by decide +kernel) (by decide +kernel : _ = some [("color", ⟨"red\\", false⟩), ("top", ⟨"0", false⟩)])
  rw [heq, hdropped] at hkept
  exact absurd hkept (by decide)

end Reader

end Stylesheet
