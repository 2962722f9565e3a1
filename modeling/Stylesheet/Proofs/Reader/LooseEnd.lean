import Stylesheet.Proofs.Reader.Closing
import Stylesheet.Proofs.Reader.Stored

/-!
# Loose ends

A backslash in front of space is kept, and the space behind it is dropped where it turns out to stand at the end of a
name or a value. What is left then ends with a backslash that escapes the delimiter behind it: a loose end. It comes to
that only if nothing else is collected behind the space, which the text shows (`goesOn`).

What the reader collects is poised (`Poised`) where it may end, where it goes on, or where the next character is escaped
by the backslash that was collected last. Reading an escape that is no loose end leaves the reader poised
(`Poised.putText`).
-/

namespace Stylesheet.Reader

open Text State Text.Escape List Cursor

variable {o : Options} {k : Cursor} {s : State} {mode : Mode} {c : Char} {tail : List Char}

/-! ## What comes behind space -/

/-- The tokens in front of which a mode needs what it has collected to be complete. -/
def stops : Mode → List Char
  | .selector => ['{', '\\', '"', '\'']
  | .value => ['}', ';', '!', '\\', '"', '\'']
  | .atRule => ['{', '}', ';', '\\', '"', '\'']
  | _ => tokenChars

/-- Behind space, if there is any, the mode collects something. -/
def goesOn (mode : Mode) : List Char → Bool
  | [] => false
  | c :: rest =>
    if isSpace c then !(mode = .value && c == '\n' && propertyFollows rest) && goesOn mode rest
    else !(stops mode).contains c && !(c == '/' && rest.head? == some '*')

/-- The reader is in front of an escape that is kept with nothing but space behind it. -/
def LooseEnd (o : Options) (r : Reader) : Prop :=
  atEscape r ∧ r.cursor.rest.tail.head?.all isSpace = true ∧
    (read o.removeBackslash r.cursor.rest.tail).text ≠ "" ∧
    goesOn r.state.mode r.cursor.rest.tail = false

instance (o : Options) : DecidablePred (LooseEnd o) := fun _ =>
  inferInstanceAs (Decidable ((_ ≠ _ ∧ _ ≠ _ ∧ _ = _ ∧ _ = _) ∧ _ = _ ∧ _ ≠ _ ∧ _ = _))

theorem mem_tokenChars_of_mem_stops (hc : c ∈ stops mode) : c ∈ tokenChars := by
  have hall (mode : Mode) : (stops mode).all tokenChars.contains = true := by cases mode <;> decide
  have hcontains := all_eq_true.mp (hall mode) c hc
  simpa using hcontains

theorem goesOn_tail (hspace : isSpace c = true) (h : goesOn mode (c :: tail) = true) : goesOn mode tail = true := by
  rw [goesOn, if_pos hspace, Bool.and_eq_true] at h
  exact h.2

theorem goesOn_of_stop (hc : c ∈ stops mode) (tail : List Char) : goesOn mode (c :: tail) = false := by
  have htoken : isTokenChar c = true := by
    simpa [isTokenChar] using mem_tokenChars_of_mem_stops hc
  rw [goesOn, if_neg (by simp [isSpace_of_isTokenChar htoken]), Bool.and_eq_false_iff]
  exact .inl (by simpa using hc)

theorem goesOn_of_comment (mode : Mode) (tail : List Char) : goesOn mode ('/' :: '*' :: tail) = false := by
  rw [goesOn, if_neg (by decide), Bool.and_eq_false_iff]
  exact .inr rfl

theorem goesOn_of_ordinary (htoken : isTokenChar c = false) (hspace : isSpace c = false) (tail : List Char) :
    goesOn mode (c :: tail) = true := by
  have hstop : c ∉ stops mode := by
    intro hmem
    have hmem := mem_tokenChars_of_mem_stops hmem
    simp [isTokenChar, hmem] at htoken
  have hslash : c ≠ '/' := by
    rintro rfl
    exact absurd htoken (by decide)
  rw [goesOn, if_neg (by simp [hspace])]
  simp [hstop, hslash]

/-! ## What has been collected -/

/-- What the mode collects. -/
def State.buffer (s : State) : Mode → String
  | .selector => s.selector
  | .property => s.property
  | _ => s.part

/-- What the mode has collected may end here. Arguments have their parenthesis. -/
def State.Complete (s : State) : Mode → Prop
  | .selector => IsFirm (trim s.selector)
  | .property => IsFirm (trim s.property)
  | .value => EndsFirm s.flushPart.parts
  | .atRule => EndsFirm s.flushPart.parts
  | .bracket => '(' ∈ s.part.toList
  | .string => False

theorem endsFirm_flushPart_of_solid (h : IsSolid s.part) : EndsFirm s.flushPart.parts := by
  obtain ⟨hne, hfirm⟩ := h.trim
  rw [parts_flushPart_of_ne hne]
  exact endsFirm_concat.mpr ⟨hne, hfirm⟩

theorem isFirm_part_of_endsFirm (h : EndsFirm s.flushPart.parts) : IsFirm s.part := by
  apply isFirm_of_trim
  by_cases hne : trim s.part = ""
  · rw [hne]
    exact isFirm_empty
  · rw [parts_flushPart_of_ne hne] at h
    exact (endsFirm_concat.mp h).2

/-- Space does not matter to what is finished. -/
theorem endsFirm_flushPart_flushPart (h : EndsFirm s.flushPart.parts) : EndsFirm s.flushPart.flushPart.parts := by
  rwa [flushPart_flushPart]

/-- A text without space at its end may end there. -/
theorem complete_of_solid (hstring : mode ≠ .string) (hbracket : mode ≠ .bracket) (h : IsSolid (s.buffer mode)) :
    s.Complete mode := by
  cases mode with
  | selector => exact h.trim.2
  | property => exact h.trim.2
  | value => exact endsFirm_flushPart_of_solid h
  | atRule => exact endsFirm_flushPart_of_solid h
  | string => exact absurd rfl hstring
  | bracket => exact absurd rfl hbracket

theorem isFirm_buffer (hbracket : mode ≠ .bracket) (h : s.Complete mode) : IsFirm (s.buffer mode) := by
  cases mode with
  | selector => exact isFirm_of_trim h
  | property => exact isFirm_of_trim h
  | value => exact isFirm_part_of_endsFirm h
  | atRule => exact isFirm_part_of_endsFirm h
  | string => exact h.elim
  | bracket => exact absurd rfl hbracket

/-- The next character is a token, and escaped. -/
def atEscapedToken (k : Cursor) : Prop := k.escaped = true ∧ k.rest.head?.any isTokenChar = true

theorem not_atEscapedToken (h : k.escaped = false) : ¬ atEscapedToken k := by
  rintro ⟨hescaped, -⟩
  rw [h] at hescaped
  cases hescaped

theorem not_atEscapedToken_of_head (h : k.rest.head?.any isTokenChar = false) : ¬ atEscapedToken k := by
  rintro ⟨-, htoken⟩
  rw [h] at htoken
  cases htoken

/-- In front of an escaped token its backslash was collected last. In front of anything else what was collected may end,
or goes on. -/
structure Poised (k : Cursor) (s : State) : Prop where
  backslash : atEscapedToken k → ¬ IsFirm (s.buffer s.mode)
  ending : ¬ atEscapedToken k → s.Complete s.mode ∨ goesOn s.mode k.rest = true

namespace Poised

theorem of_complete (hfree : ¬ atEscapedToken k) (h : s.Complete s.mode) : Poised k s :=
  ⟨fun hescaped => absurd hescaped hfree, fun _ => .inl h⟩

/-- At a token that the mode stops at, what was collected may end. -/
theorem complete_of_stop (h : Poised k s) (hmode : s.mode = mode) (hrest : k.rest = c :: tail) (htoken : k.atToken = true)
    (hc : c ∈ stops mode) : s.Complete mode := by
  subst hmode
  refine (h.ending (not_atEscapedToken (escaped_of_atToken htoken))).resolve_right fun hgoes => ?_
  rw [hrest, goesOn_of_stop hc] at hgoes
  cases hgoes

/-- In front of a comment, what was collected may end. -/
theorem complete_of_comment (h : Poised k s) (htoken : k.atToken = true) (hcomment : atComment k = true) :
    s.Complete s.mode := by
  obtain ⟨body, hrest⟩ := exists_body hcomment
  refine (h.ending (not_atEscapedToken (escaped_of_atToken htoken))).resolve_right fun hgoes => ?_
  rw [hrest, goesOn_of_comment] at hgoes
  cases hgoes

/-- Space is passed over. -/
theorem of_space (h : Poised k s) (hrest : k.rest = c :: tail) (hspace : isSpace c = true) {t : State}
    (hmode : t.mode = s.mode) (hcomplete : s.Complete s.mode → t.Complete s.mode) : Poised (k.advance (0 + 1)) t := by
  have hc : c ≠ '\\' := by
    rintro rfl
    exact absurd hspace (by decide)
  have hescaped : (k.advance (0 + 1)).escaped = false := by
    rw [escaped_advance_one hrest, beq_eq_false_iff_ne.mpr hc, Bool.false_and]
  have hfree : ¬ atEscapedToken k := by
    apply not_atEscapedToken_of_head
    rw [hrest, head?_cons, Option.any_some]
    by_contra htoken
    rw [isSpace_of_isTokenChar (by simpa using htoken)] at hspace
    cases hspace
  refine ⟨fun h => absurd h (not_atEscapedToken hescaped), fun _ => ?_⟩
  rw [hmode]
  refine (h.ending hfree).imp hcomplete fun hgoes => ?_
  rw [hrest] at hgoes
  rw [advance, hrest]
  exact goesOn_tail hspace hgoes

/-- A run of ordinary characters can end a text, and so can a token whose backslash is there. -/
theorem isSolid_readRun (h : Poised k s) (hrest : k.rest = c :: tail)
    (htoken : k.atToken = false) (hspace : isSpace c = false) :
    IsSolid (s.buffer s.mode ++ (readRun k c).1) := by
  by_cases hc : isTokenChar c = true
  · have hescaped : k.escaped = true := by simpa [atToken, hrest, hc] using htoken
    have hodd := h.backslash ⟨hescaped, by rw [hrest]; exact hc⟩
    have hrun : (readRun k c).1 = String.singleton c := by
      have hnil : k.ordinaryRun = [] := by
        rw [ordinaryRun, hrest, takeWhile_cons_of_neg (by simp [isOrdinary, hc])]
      simp [readRun, hnil]
    rw [hrun, String.append_singleton]
    by_cases hbackslash : c = '\\'
    · rw [hbackslash]
      exact isSolid_push_backslash hodd
    · exact isSolid_push _ hbackslash hspace
  · have hordinary : isOrdinary c = true := by simp [isOrdinary, hc, hspace]
    have hne : k.ordinaryRun ≠ [] := by
      rw [ordinaryRun, hrest, takeWhile_cons_of_pos hordinary]
      exact cons_ne_nil _ _
    have hrun : (readRun k c).1 = String.ofList k.ordinaryRun := by simp [readRun, hne]
    obtain ⟨front, d, hd⟩ := (eq_nil_or_concat' k.ordinaryRun).resolve_left hne
    have hmem : d ∈ k.ordinaryRun := by simp [hd]
    have hlast : isOrdinary d = true := mem_takeWhile_imp hmem
    simp only [isOrdinary, Bool.and_eq_true, Bool.not_eq_true'] at hlast
    refine IsSolid.of_getLast? (c := d) ?_ ?_ hlast.2
    · rw [hrun, String.toList_append, String.toList_ofList, hd, ← append_assoc, getLast?_concat]
    · rintro rfl
      exact absurd hlast.1 (by decide)

end Poised

/-! ## Escapes -/

/-- An escape with digits ends with a digit or a letter. -/
theorem isSolid_writtenText {after : List Char} (h : digitsOf after ≠ []) : IsSolid (writtenText after) := by
  unfold writtenText
  split
  · next halnum =>
    have hsolid : ∀ c : Char, c.isAlphanum = true → c ≠ '\\' ∧ isSpace c = false := by
      intro c hc
      constructor
      · rintro rfl
        exact absurd hc (by decide)
      · by_contra hspace
        simp only [isSpace, Bool.not_eq_false, Bool.or_eq_true, beq_iff_eq] at hspace
        rcases hspace with (((rfl | rfl) | rfl) | rfl) | rfl <;> exact absurd hc (by decide)
    obtain ⟨hbackslash, hspace⟩ := hsolid _ halnum
    exact isSolid_push "" hbackslash hspace
  · rw [if_neg (by simp [h])]
    obtain ⟨front, d, hd⟩ := (eq_nil_or_concat' _).resolve_left h
    have hmem : d ∈ digitsOf after := by simp [hd]
    have hdigit := isHexDigit_of_mem_digitsOf hmem
    refine IsSolid.of_getLast? (c := d) ?_ ?_ ?_
    · rw [hd, String.ofList_append, ← String.append_assoc, String.toList_append, String.toList_ofList (l := [d]),
        getLast?_concat]
    · rintro rfl
      exact absurd hdigit (by decide)
    · by_contra hspace
      simp only [isSpace, Bool.not_eq_false, Bool.or_eq_true, beq_iff_eq] at hspace
      rcases hspace with (((rfl | rfl) | rfl) | rfl) | rfl <;> exact absurd hdigit (by decide)

/-- An escape that is kept has something in it that is no space. -/
theorem exists_mem_read {drop : Bool} {after : List Char} (h : (read drop after).text ≠ "") :
    ∃ d ∈ (read drop after).text.toList, isSpace d = false := by
  rcases text_read drop after with htext | ⟨htext, -⟩
  · rw [htext]
    by_cases hdigits : digitsOf after = []
    · refine ⟨'\\', ?_, by decide⟩
      rw [writtenText_of_nil hdigits]
      split <;> decide
    · obtain ⟨d, hd, hspace⟩ := (isSolid_writtenText hdigits).last
      exact ⟨d, mem_of_getLast? hd, hspace⟩
  · exact absurd htext h

theorem buffer_putText (s : State) (text : String) : (s.putText text).buffer s.mode = s.buffer s.mode ++ text := by
  unfold putText buffer
  cases s.mode <;> rfl

section Backslash

variable {after : List Char} (hrest : k.rest = '\\' :: after) (hdigits : digitsOf after = [])

include hrest hdigits

/-- A backslash in front of space, behind which something is collected. -/
theorem poised_of_spaced (hspace : after.head?.all isSpace = true) (hgoes : goesOn s.mode after = true) (text : String) :
    Poised (k.advance (takenLength after + 1)) (s.putText text) := by
  have hbehind : (k.advance (takenLength after + 1)).rest = after.drop (takenLength after) := by
    rw [advance, hrest, drop_succ_cons]
  have hnot : ¬ atEscapedToken (k.advance (takenLength after + 1)) := by
    rcases takenLength_of_nil hdigits with hzero | ⟨hone, -⟩
    · apply not_atEscapedToken_of_head
      rw [hbehind, hzero, drop_zero]
      cases after with
      | nil => rfl
      | cons d after => exact isTokenChar_of_isSpace hspace
    · exact not_atEscapedToken (escaped_takenLength hrest (by omega))
  refine ⟨fun h => absurd h hnot, fun _ => .inr ?_⟩
  rw [mode_putText, hbehind]
  rcases takenLength_of_nil hdigits with hzero | ⟨hone, hany⟩
  · rwa [hzero, drop_zero]
  · cases after with
    | nil => cases hany
    | cons d after =>
      rw [hone, drop_succ_cons, drop_zero]
      exact goesOn_tail hspace hgoes

/-- A backslash in front of a character that it escapes. -/
theorem poised_of_bare (hfree : k.escaped = false) (hspace : ¬ after.head?.all isSpace = true)
    (hfirm : IsFirm (s.buffer s.mode)) :
    Poised (k.advance (takenLength after + 1)) (s.putText (writtenText after)) := by
  cases after with
  | nil => exact absurd rfl hspace
  | cons d after =>
    have hspace : isSpace d = false := by simpa using hspace
    have hzero : takenLength (d :: after) = 0 := by
      refine (takenLength_of_nil hdigits).resolve_right ?_
      rintro ⟨-, hany⟩
      rw [head?_cons, Option.any_some, hspace] at hany
      cases hany
    have hwritten : writtenText (d :: after) = "\\" := by
      rw [writtenText_of_nil hdigits, if_neg]
      intro hblank
      rw [Option.some.inj hblank] at hspace
      exact absurd hspace (by decide)
    have hbehind : (k.advance (0 + 1)).rest = d :: after := by
      rw [advance, hrest]
      rfl
    have hescaped : (k.advance (0 + 1)).escaped = true := by
      rw [escaped_advance_one hrest, hfree]
      rfl
    rw [hzero, hwritten]
    refine ⟨fun _ => ?_, fun hnot => .inr ?_⟩
    · rw [mode_putText, buffer_putText]
      exact not_isFirm_push_backslash hfirm
    · have htoken : isTokenChar d = false := by
        by_contra htoken
        exact hnot ⟨hescaped, by rw [hbehind]; simpa using htoken⟩
      rw [mode_putText, hbehind]
      exact goesOn_of_ordinary htoken hspace after

end Backslash

/-- **An escape that is no loose end** leaves the reader poised. -/
theorem Poised.putText {after : List Char} (h : Poised k s) (hat : atEscape ⟨k, s⟩) (hloose : ¬ LooseEnd o ⟨k, s⟩)
    (hrest : k.rest = '\\' :: after) :
    Poised (k.advance (takenLength after + 1))
      (s.putText (read o.removeBackslash after).text) := by
  obtain ⟨hstring, hbracket, htoken, -⟩ :
    s.mode ≠ .string ∧ s.mode ≠ .bracket ∧ k.atToken = true ∧ k.rest.head? = some '\\' := id hat
  have hfree := escaped_of_atToken htoken
  have hstop : '\\' ∈ stops s.mode := by
    cases s.mode <;> decide
  have hcomplete := h.complete_of_stop rfl hrest htoken hstop
  have hfirm := isFirm_buffer hbracket hcomplete
  rcases text_read o.removeBackslash after with hwritten | ⟨hdropped, hbehind⟩
  · rw [hwritten]
    by_cases hdigits : digitsOf after = []
    · by_cases hspace : after.head?.all isSpace = true
      · refine poised_of_spaced hrest hdigits hspace ?_ _
        by_contra hends
        refine hloose ⟨hat, by rw [hrest]; exact hspace, ?_, by rw [hrest]; simpa using hends⟩
        rw [hrest, tail_cons, hwritten, writtenText_of_nil hdigits]
        split <;> decide
      · exact poised_of_bare hrest hdigits hfree hspace hfirm
    · have hne : takenLength after ≠ 0 := by
        have hpos := length_pos_of_ne_nil hdigits
        unfold takenLength
        simp only
        split <;> omega
      refine .of_complete (not_atEscapedToken (escaped_takenLength hrest hne)) ?_
      rw [mode_putText]
      refine complete_of_solid hstring hbracket ?_
      rw [buffer_putText]
      exact .append hfirm (isSolid_writtenText hdigits)
  · rw [hdropped, putText_empty]
    refine .of_complete (not_atEscapedToken_of_head ?_) hcomplete
    rw [advance, hrest, drop_succ_cons]
    exact hbehind

end Stylesheet.Reader
