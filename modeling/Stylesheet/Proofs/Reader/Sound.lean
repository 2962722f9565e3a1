import Stylesheet.Proofs.Reader.LooseEnd

/-!
# What is collected will be firm

In front of every step the document should be firm and the reader poised, and so should whatever a string or the
arguments of a function interrupt (`Sound`). Strings bring nothing loose with them: their last backslashes are those of
the source, where their quote is not escaped. What stands in front of an exclamation mark has to be firm on its own,
since it may become the end of the value.
-/

namespace Stylesheet.Reader

open State List String
open Text (Cursor IsFirm IsSolid isSpace isTokenChar oddBackslashes)

variable {o : Options} {k : Cursor} {s : State} {mode : Mode} {c : Char} {tail : List Char}

/-! ## Exclamation marks -/

theorem marksFirm_flushPart :
    MarksFirm s.flushPart.parts ↔ MarksFirm s.parts ∧ (Text.trim s.part = "!" → EndsFirm s.parts) := by
  by_cases hempty : Text.trim s.part = ""
  · rw [parts_flushPart_of_empty hempty, hempty]
    exact ⟨fun h => ⟨h, fun hmark => absurd hmark (by decide)⟩, And.left⟩
  · rw [parts_flushPart_of_ne hempty, marksFirm_concat]

/-- A part with another character in it is no exclamation mark. -/
theorem marksFirm_of_mem (h : MarksFirm s.flushPart.parts) {part : String} {d : Char} (hd : d ∈ part.toList)
    (hspace : isSpace d = false) (hne : d ≠ '!') : MarksFirm (flushPart { s with part }).parts :=
  marksFirm_flushPart.mpr ⟨(marksFirm_flushPart.mp h).1, fun hmark =>
    absurd hmark (Text.trim_ne_singleton hd hspace hne)⟩

/-- A solid text behind a part that may end makes no exclamation mark of it, or stands alone. -/
theorem marksFirm_append (h : MarksFirm s.flushPart.parts) (hends : EndsFirm s.flushPart.parts) {text : String}
    (htext : IsSolid text) : MarksFirm (flushPart { s with part := s.part ++ text }).parts := by
  refine marksFirm_flushPart.mpr ⟨(marksFirm_flushPart.mp h).1, fun hmark => ?_⟩
  rwa [parts_flushPart_of_empty (Text.trim_eq_empty_of_append (c := '!') htext hmark)] at hends

/-! ## Strings -/

/-- A string with its quotes and firm content is solid, and so is its content where it does without them. -/
theorem isSolid_stringText (hquote : IsQuote s.quote) {content : List Char}
    (hstring : s.string.toList = s.quote :: content ++ [s.quote]) (hfirm : oddBackslashes content.reverse = false) :
    IsSolid (s.stringText o) := by
  have hsolid {c : Char} (hc : IsQuote c) : c ≠ '\\' ∧ isSpace c = false := by
    rcases hc with rfl | rfl <;> decide
  have hwhole : IsSolid s.string := by
    refine IsSolid.of_getLast? (c := s.quote) ?_ (hsolid hquote).1 (hsolid hquote).2
    rw [hstring, getLast?_concat]
  have hdouble : IsSolid (Text.doubleQuoted s.string) := by
    unfold Text.doubleQuoted
    split
    · exact hwhole
    · refine IsSolid.of_getLast? (c := '"') ?_ (by decide) (by decide)
      rw [toList_append, getLast?_append_of_ne_nil _ (by decide)]
      rfl
  have hinner : Text.inner s.string = ofList content := by
    rw [Text.inner, hstring]
    simp
  unfold stringText Text.unquoted
  split
  · exact hwhole
  · split
    · exact hdouble
    · simp only [hinner]
      split
      · exact hdouble
      · next hbare =>
        simp only [Bool.or_eq_true, not_or, toList_ofList, Bool.not_eq_true] at hbare
        have hne : content ≠ [] := by
          rintro rfl
          exact absurd hbare.1 (by decide)
        obtain ⟨front, d, rfl⟩ := (eq_nil_or_concat' content).resolve_left hne
        refine ⟨by rwa [IsFirm, toList_ofList], d, ?_, ?_⟩
        · rw [toList_ofList, getLast?_concat]
          rfl
        · have hplain := any_eq_false.mp hbare.2 d (by simp)
          simp only [Text.needsQuotes, Bool.or_eq_true, not_or, Bool.not_eq_true] at hplain
          exact hplain.1.1.1.1

/-- A string that the text ends in is closed with firm content. -/
theorem exists_closedString (hquote : IsQuote s.quote) (hopened : ∃ content, s.string.toList = s.quote :: content) :
    ∃ content, s.closedString.toList = s.quote :: content ++ [s.quote] ∧ oddBackslashes content.reverse = false := by
  have hsolid : s.quote ≠ '\\' ∧ isSpace s.quote = false := by
    rcases hquote with hq | hq <;> rw [hq] <;> decide
  -- the quote stays where space is trimmed off, and where a backslash is
  have htrim : ∃ content, (Text.trim s.string).toList = s.quote :: content := by
    obtain ⟨content, hcontent⟩ := hopened
    obtain ⟨left, right, hsplit, hleft, hright⟩ := Text.exists_trimBoth isSpace s.string.toList
    rw [hcontent] at hsplit
    have hnil : left = [] := by
      cases left with
      | nil => rfl
      | cons d left =>
        have hd : s.quote = d := (cons.inj hsplit).1
        rw [← hd] at hleft
        exact absurd (hleft s.quote mem_cons_self) (by simp [hsolid.2])
    rw [hnil, nil_append, ← hcontent] at hsplit
    rw [Text.trim, toList_ofList]
    cases hmiddle : Text.trimBoth isSpace s.string.toList with
    | nil =>
      rw [hmiddle, nil_append, hcontent] at hsplit
      exact absurd (hright s.quote (hsplit ▸ mem_cons_self)) (by simp [hsolid.2])
    | cons d middle =>
      rw [hmiddle, hcontent] at hsplit
      exact ⟨middle, by rw [(cons.inj hsplit).1]⟩
  obtain ⟨content, htrim⟩ := htrim
  have hodd (l : List Char) : oddBackslashes (s.quote :: l).reverse = oddBackslashes l.reverse := by
    rw [reverse_cons, Text.oddBackslashes_append]
    rw [Text.oddBackslashes_cons, beq_eq_false_iff_ne.mpr hsolid.1, Bool.false_and]
  unfold closedString
  simp only [toList_push, htrim, hodd]
  split
  · next hbackslash =>
    rcases eq_nil_or_concat' content with rfl | ⟨front, d, rfl⟩
    · cases hbackslash
    · rw [reverse_append, reverse_singleton, singleton_append, Text.oddBackslashes_cons,
        Bool.and_eq_true, Bool.not_eq_true'] at hbackslash
      refine ⟨front, ?_, hbackslash.2⟩
      rw [Text.dropLast, toList_ofList, htrim, ← cons_append, dropLast_concat]
  · next hbackslash => exact ⟨content, by rw [htrim], by simpa using hbackslash⟩

/-! ## In front of every step -/

/-- Inside of a string: it has its opening quote, its last backslashes are those of the source, and what it interrupts
may end. -/
structure Quoting (k : Cursor) (s : State) : Prop where
  quote : IsQuote s.quote
  opened : ∃ content, s.string.toList = s.quote :: content
  escaped : k.escaped = oddBackslashes s.string.toList.reverse
  interrupts : ∃ mode returns, s.returns = mode :: returns ∧ mode ≠ .property ∧ s.Complete mode

/-- What is stored is firm, and what is collected will be. -/
structure Sound (k : Cursor) (s : State) : Prop where
  document : s.document.Firm
  property : s.mode ≠ .property → IsFirm (Text.trim s.property)
  marks : .atRule ∉ s.mode :: s.returns → MarksFirm s.flushPart.parts
  poised : s.mode ≠ .string → s.mode ≠ .bracket → Poised k s
  arguments : s.mode = .bracket → s.Complete .bracket
  quoting : s.mode = .string → Quoting k s

/-- What may end depends on the buffers only. -/
theorem complete_congr {t : State} (hselector : t.selector = s.selector) (hproperty : t.property = s.property)
    (hpart : t.part = s.part) (hparts : t.parts = s.parts) (h : s.Complete mode) : t.Complete mode := by
  have hflush : t.flushPart.parts = s.flushPart.parts := by simp only [flushPart, hpart, hparts]
  cases mode with
  | selector => rwa [State.Complete, hselector]
  | property => rwa [State.Complete, hproperty]
  | value => rwa [State.Complete, hflush]
  | atRule => rwa [State.Complete, hflush]
  | bracket => rwa [State.Complete, hpart]
  | string => exact h

/-- Behind any other character than a backslash no token is escaped. -/
theorem free_of_cons (hrest : k.rest = c :: tail) (hc : c ≠ '\\') : ¬ atEscapedToken (k.advance (0 + 1)) := by
  apply not_atEscapedToken
  rw [Cursor.escaped_advance_one hrest, beq_eq_false_iff_ne.mpr hc, Bool.false_and]

/-- In front of the last character, which is a blank, no token is escaped. -/
theorem free_of_end (hlast : k.rest.getLast? = some ' ') {n : Nat} (hend : (k.advance n).rest.drop 1 = []) :
    ¬ atEscapedToken (k.advance n) := by
  apply not_atEscapedToken_of_head
  rw [Cursor.advance] at hend ⊢
  cases hrest : k.rest.drop n with
  | nil => rfl
  | cons d more =>
    rw [hrest, drop_succ_cons, drop_zero] at hend
    have hd : (k.rest.drop n).getLast? = some d := by rw [hrest, hend, getLast?_singleton]
    rw [getLast?_drop, hlast] at hd
    split at hd
    · cases hd
    · rw [← Option.some.inj hd]
      rfl

theorem Returnable.atRule_notMem {marks : List Mode} (h : Returnable marks) : .atRule ∉ marks := by
  induction marks with
  | nil => exact not_mem_nil
  | cons mark marks ih =>
    rw [mem_cons, not_or]
    refine ⟨?_, ih h.2⟩
    rintro rfl
    rcases h.1 with hmark | ⟨hmark, -⟩ <;> cases hmark

namespace Sound

/-- Outside of strings and functions. -/
theorem of_poised (hstring : s.mode ≠ .string) (hbracket : s.mode ≠ .bracket) (hdocument : s.document.Firm)
    (hproperty : s.mode ≠ .property → IsFirm (Text.trim s.property))
    (hmarks : .atRule ∉ s.mode :: s.returns → MarksFirm s.flushPart.parts) (hpoised : Poised k s) : Sound k s :=
  ⟨hdocument, hproperty, hmarks, fun _ _ => hpoised, fun h => absurd h hbracket, fun h => absurd h hstring⟩

/-- Where there are no parts. -/
theorem of_name (hmode : s.mode = .selector ∨ s.mode = .property) (hdocument : s.document.Firm)
    (hproperty : s.mode ≠ .property → IsFirm (Text.trim s.property)) (hpart : s.part = "") (hparts : s.parts = [])
    (hpoised : Poised k s) : Sound k s := by
  refine of_poised ?_ ?_ hdocument hproperty (fun _ => ?_) hpoised
  · rcases hmode with h | h <;> simp [h]
  · rcases hmode with h | h <;> simp [h]
  · rw [parts_flushPart hpart, hparts]
    exact .nil

/-- Where nothing is collected. -/
theorem of_blank (hmode : s.mode = .selector ∨ s.mode = .property) (hdocument : s.document.Firm)
    (hselector : s.selector = "") (hproperty : s.property = "") (hpart : s.part = "") (hparts : s.parts = [])
    (hfree : ¬ atEscapedToken k) : Sound k s := by
  have hempty : IsFirm (Text.trim "") := by decide
  refine of_name hmode hdocument (fun _ => hproperty ▸ hempty) hpart hparts (.of_complete hfree ?_)
  rcases hmode with h | h
  · rwa [h, State.Complete, hselector]
  · rwa [h, State.Complete, hproperty]

/-- Behind a comment. -/
theorem readComment (h : Sound k s) (hstring : s.mode ≠ .string) (hbracket : s.mode ≠ .bracket)
    (hlast : k.rest.getLast? = some ' ') (htoken : k.atToken = true) (hcomment : atComment k = true) :
    Sound (k.advance ((s.readComment o k).2 + 1)) (s.readComment o k).1 := by
  have hcomplete := (h.poised hstring hbracket).complete_of_comment htoken hcomment
  have hfree : ¬ atEscapedToken (k.advance ((s.readComment o k).2 + 1)) := by
    rcases escaped_readComment (o := o) s hcomment with hescaped | hend
    · exact not_atEscapedToken hescaped
    · exact free_of_end hlast hend
  have hdocument := firm_readComment (o := o) h.document k
  obtain ⟨line, document, heq⟩ := readComment_eq o s k
  rw [heq] at hdocument ⊢
  exact of_poised hstring hbracket hdocument h.property h.marks
    (.of_complete hfree (complete_congr rfl rfl rfl rfl hcomplete))

/-- At the beginning of a string. -/
theorem beginString (h : Sound k s) (hrest : k.rest = c :: tail) (hc : IsQuote c) (keepQuotes : Bool)
    (hmode : s.mode = mode) (hproperty : mode ≠ .property) (hcomplete : s.Complete mode) :
    Sound (k.advance (0 + 1)) (s.beginString c keepQuotes) where
  document := h.document
  property := fun _ => h.property (hmode ▸ hproperty)
  marks := fun hnot => h.marks fun hmem => hnot (mem_cons_of_mem _ hmem)
  poised := fun hstring => absurd rfl hstring
  arguments := fun hbracket => absurd hbracket (by simp [State.beginString, State.pushMode])
  quoting := fun _ => by
    have hbackslash : c ≠ '\\' := by rcases hc with rfl | rfl <;> decide
    refine ⟨hc, ⟨[], toList_singleton c⟩, ?_, mode, s.returns, hmode ▸ rfl, hproperty,
      complete_congr rfl rfl rfl rfl hcomplete⟩
    have hstring : (s.beginString c keepQuotes).string.toList = [c] := toList_singleton c
    rw [hstring, reverse_singleton, Text.oddBackslashes_cons, Cursor.escaped_advance_one hrest,
      beq_eq_false_iff_ne.mpr hbackslash, Bool.false_and, Bool.false_and]

/-- Behind a string. -/
theorem closeString (hdocument : s.document.Firm) (hproperty : IsFirm (Text.trim s.property))
    (hmarks : .atRule ∉ s.returns → MarksFirm s.flushPart.parts) {returns : List Mode}
    (hreturns : s.returns = mode :: returns) (hmode : mode ≠ .property) (hcomplete : s.Complete mode)
    (htext : IsSolid (s.stringText o)) (hfree : ¬ atEscapedToken k) : Sound k (s.closeString o) := by
  rw [hreturns] at hmarks
  unfold State.closeString
  simp only [popMode, hreturns]
  cases mode with
  | selector =>
    refine of_poised (by simp) (by simp) hdocument (fun _ => hproperty) hmarks (.of_complete hfree ?_)
    exact complete_of_solid (by simp) (by simp) (.append (Text.isFirm_of_trim hcomplete) htext)
  | value =>
    refine of_poised (by simp) (by simp) hdocument (fun _ => hproperty)
      (fun hnot => marksFirm_append (hmarks hnot) hcomplete htext) (.of_complete hfree ?_)
    exact complete_of_solid (by simp) (by simp) (.append (isFirm_part_of_endsFirm hcomplete) htext)
  | atRule =>
    refine of_poised (by simp) (by simp) hdocument (fun _ => hproperty)
      (fun hnot => absurd mem_cons_self hnot) (.of_complete hfree ?_)
    exact complete_of_solid (by simp) (by simp) (.append (isFirm_part_of_endsFirm hcomplete) htext)
  | bracket =>
    have hmem : '(' ∈ (s.part ++ s.stringText o).toList := by
      rw [toList_append]
      exact mem_append_left _ hcomplete
    exact ⟨hdocument, fun _ => hproperty, fun hnot => marksFirm_of_mem (hmarks hnot) hmem (by decide) (by decide),
      fun _ hbracket => absurd rfl hbracket, fun _ => hmem, fun hstring => absurd hstring (by simp)⟩
  | property => exact absurd rfl hmode
  | string => exact hcomplete.elim

/-- Behind a declaration. -/
theorem endDeclaration (hdocument : s.document.Firm) (hproperty : IsFirm (Text.trim s.property))
    (hends : EndsFirm s.flushPart.parts) (hmarks : MarksFirm s.flushPart.parts) {returns : List Mode}
    (hreturns : s.returns = .property :: returns) (hselector : s.selector = "") (hfree : ¬ atEscapedToken k) :
    Sound k ((s.popMode .property).endDeclaration o) := by
  rw [popMode_eq, hreturns, head?_cons, Option.getD_some, tail_cons]
  have hfirm := firm_endDeclaration (o := o) (s := { s with mode := .property, returns }) hdocument hproperty hends hmarks
  obtain ⟨document, heq⟩ := exists_endDeclaration_eq o { s with mode := .property, returns }
  rw [heq] at hfirm ⊢
  exact of_blank (.inr rfl) hfirm hselector rfl rfl rfl hfree

/-- Behind an at-rule without a body. -/
theorem endAtRule (hdocument : s.document.Firm) (hends : EndsFirm s.flushPart.parts) (hselector : s.selector = "")
    (hproperty : s.property = "") (hfree : ¬ atEscapedToken k) : Sound k (s.endAtRule o) := by
  have hfirm := firm_endAtRule (o := o) hdocument hends
  obtain ⟨document, new, -, heq⟩ := endAtRule_eq o s
  rw [heq] at hfirm ⊢
  exact of_blank (bodyMode_cases s.origin) hfirm hselector hproperty rfl rfl hfree

end Sound

end Stylesheet.Reader
