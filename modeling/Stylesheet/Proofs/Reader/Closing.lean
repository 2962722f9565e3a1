import Stylesheet.Proofs.Reader.Ahead
import Stylesheet.Proofs.Reader.Compose
import Mathlib.Data.List.Induction

/-!
# The end of a text closes what is open

A stylesheet may end inside of a declaration, an at-rule or a block. The reader then ends the declaration or the
at-rule, and all blocks with it. Closing braces behind the stylesheet would do the same, along another way: a brace ends
the declaration or the at-rule and closes a block. `read_append_braces` shows that the same document comes of both.

The two readers go the same way up to the end of the text (`Inside`), where closing braces are not seen. What they do
from there on is compared for each mode in which the text can end (`document_of_end`, `document_of_closing`).
-/

namespace Stylesheet.Reader

open Text State Text.Escape List Cursor

variable {r : Reader} {marks : List Mode} {atSign : Mode} {m : Nat}
variable {o : Options} {s s' : State} {before w : List Char} {c : Char} {n : Nat}

/-! ## Declarations and modes -/

section

variable (o : Options) (s : State) (mode : Mode) (returns : List Mode) (quote : Char)

/-- The end of a declaration has nothing to do with modes and strings. -/
theorem endDeclaration_frame :
    { s with mode, returns, quote }.endDeclaration o = { s.endDeclaration o with mode, returns, quote } := by
  have hsame : { s with mode, returns, quote }.declaration? o = s.declaration? o :=
    declaration?_congr rfl rfl rfl rfl rfl
  rw [endDeclaration_eq_elim, endDeclaration_eq_elim, hsame]
  cases s.declaration? o with
  | none => rfl
  | some d =>
    simp only [Option.elim, addDeclaration, pushToken_eq]
    rfl

end

theorem endDeclaration_keeps (o : Options) (s : State) :
    (s.endDeclaration o).mode = s.mode ∧ (s.endDeclaration o).returns = s.returns ∧
      (s.endDeclaration o).quote = s.quote := by
  have hframe : s.endDeclaration o
      = { s.endDeclaration o with mode := s.mode, returns := s.returns, quote := s.quote } :=
    endDeclaration_frame o s s.mode s.returns s.quote
  exact ⟨by rw [hframe], by rw [hframe], by rw [hframe]⟩

theorem document_popMode_endDeclaration (o : Options) (s : State) (otherwise : Mode) :
    ((s.popMode otherwise).endDeclaration o).document = (s.endDeclaration o).document := by
  rw [popMode_eq]
  have hframe := endDeclaration_frame o s (s.returns.head?.getD otherwise) s.returns.tail s.quote
  rw [hframe]

/-! ## The end of a text -/

/-- Outside of strings and functions, what is read of a text ends with the declaration or the at-rule at its end. -/
theorem document_finish (hstring : s.mode ≠ .string) (hbracket : s.mode ≠ .bracket) :
    (s.finish o).document = (s.finishWords o).document := by
  rw [finish, finishString, if_neg hstring, finishBracket, if_neg hbracket]

theorem finishWords_eq_self (h : s.mode = .selector ∨ s.mode = .property) : s.finishWords o = s := by
  rcases h with h | h <;> rw [finishWords, h]

theorem flushPart_flushPart (s : State) : s.flushPart.flushPart = s.flushPart := by
  have hempty : (trim "").isEmpty = true := by decide
  unfold flushPart
  simp only [hempty, if_true]

/-- The step over the blank behind a text is the last one. -/
theorem state_run_of_blank (hrest : r.cursor.rest = [' ']) : (r.run o).state = (r.state.step o r.cursor ' ').1 := by
  have hshared : r.atSharedBrace = false := by simp [atSharedBrace, hrest]
  rw [← run_next, run_of_nil (rest_next_of_blank hrest), next_of_cons hrest hshared]
  rfl

/-- The blank behind a text, or nothing at all. -/
theorem document_of_end (hrest : r.cursor.rest = [] ∨ r.cursor.rest = [' ']) (hstring : r.state.mode ≠ .string)
    (hbracket : r.state.mode ≠ .bracket) (hvalue : r.state.mode = .value → r.state.returns.head? = some .property) :
    ((r.run o).state.finish o).document = (r.state.finishWords o).document := by
  rcases hrest with hrest | hrest
  · rw [run_of_nil hrest, document_finish hstring hbracket]
  have htoken : r.cursor.atToken = false := by
    rw [atToken, hrest]
    rfl
  rw [state_run_of_blank hrest, step]
  cases hmode : r.state.mode with
  | string => exact absurd hmode hstring
  | bracket => exact absurd hmode hbracket
  | selector =>
    obtain ⟨selector, heq⟩ := spaceSelector_eq r.state
    have hstep : (r.state.inSelector o r.cursor ' ').1 = r.state.spaceSelector := by
      simp [inSelector, htoken, isSpace]
    have hmode' : r.state.spaceSelector.mode = .selector := by rw [heq]; exact hmode
    have hdocument : r.state.spaceSelector.document = r.state.document := by rw [heq]
    rw [hstep, document_finish (by simp [hmode']) (by simp [hmode']), finishWords_eq_self (.inl hmode'),
      finishWords_eq_self (.inl hmode), hdocument]
  | property =>
    have hstep : (r.state.inProperty o r.cursor ' ').1 = r.state := by
      simp [inProperty, htoken, isSpace]
    rw [hstep, document_finish hstring hbracket]
  | value =>
    -- the blank goes on to the name of a property
    have hproperty : (r.state.popMode .property).mode = .property := by
      rw [popMode_eq, hvalue hmode]
      rfl
    have hstep : (r.state.inValue o r.cursor ' ').1 = (r.state.popMode .property).endDeclaration o := by
      simp [inValue, hrest]
    have hmode' : ((r.state.popMode .property).endDeclaration o).mode = .property := by
      rw [(endDeclaration_keeps o _).1, hproperty]
    rw [hstep, document_finish (by simp [hmode']) (by simp [hmode']), finishWords_eq_self (.inr hmode'),
      document_popMode_endDeclaration, finishWords, hmode]
  | atRule =>
    have hstep : (r.state.inAtRule o r.cursor ' ').1 = r.state.flushPart := by
      simp [inAtRule, inWords, htoken, isSpace]
    have hmode' : r.state.flushPart.mode = .atRule := hmode
    rw [hstep, document_finish (by simp [hmode']) (by simp [hmode']), finishWords, hmode', finishWords,
      hmode, endAtRule, endAtRule, flushPart_flushPart]

/-! ## Closing braces -/

theorem atToken_brace (hfree : oddBackslashes before = false) (rest : List Char) :
    atToken ⟨before, '}' :: rest⟩ = true := by
  rw [atToken, escaped, hfree]
  rfl

theorem document_closeBlock (ho : o.preserveCss = false) (s : State) : (s.closeBlock o).document = s.document := by
  unfold closeBlock
  split
  · rfl
  · simp [pushToken_eq, ho]

/-- Nothing is being read but a selector or the name of a property. -/
structure Outside (s : State) : Prop where
  mode : s.mode = .selector ∨ s.mode = .property
  returnable : Returnable s.returns

theorem Returnable.tail (h : Returnable marks) : Returnable marks.tail := by
  cases marks with
  | nil => trivial
  | cons mark marks => exact h.2

/-- Behind the end of a block. -/
theorem Outside.popMode (h : Returnable s.returns) (selector property : String) :
    Outside { s.popMode .selector with selector, property } := by
  rw [popMode_eq]
  exact ⟨h.head, h.tail⟩

/-- A closing brace closes a block, and there is nothing else for it to end. -/
theorem Outside.step (ho : o.preserveCss = false) (h : Outside s) (hfree : oddBackslashes before = false)
    (rest : List Char) :
    (s.step o ⟨before, '}' :: rest⟩ '}').2 = 0 ∧ Outside (s.step o ⟨before, '}' :: rest⟩ '}').1 ∧
      (s.step o ⟨before, '}' :: rest⟩ '}').1.document = s.document := by
  have htoken := atToken_brace hfree rest
  have hcomment : atComment ⟨before, '}' :: rest⟩ = false := rfl
  have hdocument : ((s.closeBlock o).popMode .selector).document = s.document := by
    rw [popMode_eq]
    exact document_closeBlock ho s
  have hreturnable : Returnable (s.closeBlock o).returns := by
    obtain ⟨document, heq⟩ := closeBlock_eq o s
    rw [heq]
    exact h.returnable
  rcases h.mode with hmode | hmode
  · have hstep : s.step o ⟨before, '}' :: rest⟩ '}'
        = ({ (s.closeBlock o).popMode .selector with selector := "" }, 0) := by
      rw [State.step, hmode]
      simp [inSelector, htoken, hcomment]
    rw [hstep]
    exact ⟨rfl, .popMode hreturnable _ _, hdocument⟩
  · have hstep : s.step o ⟨before, '}' :: rest⟩ '}'
        = ({ (s.closeBlock o).popMode .selector with selector := "", property := "" }, 0) := by
      rw [State.step, hmode]
      simp [inProperty, htoken, hcomment]
    rw [hstep]
    exact ⟨rfl, .popMode hreturnable _ _, hdocument⟩

/-- One step over a closing brace, in front of the rest of a text. -/
theorem run_brace {t : State} {rest : List Char} (hmode : s.mode ≠ .atRule)
    (hstep : s.step o ⟨before, '}' :: rest⟩ '}' = (t, 0)) :
    run o ⟨⟨before, '}' :: rest⟩, s⟩ = run o ⟨⟨'}' :: before, rest⟩, t⟩ := by
  have hline : s.countLine '}' = s := rfl
  rw [← run_next, next_of_alone hmode (by rw [hline, hstep])]

/-- Outside of everything closing braces leave the document as it is. -/
theorem Outside.document_run (ho : o.preserveCss = false) (h : Outside s) (hfree : oddBackslashes before = false)
    (n : Nat) : ((run o ⟨⟨before, closing n⟩, s⟩).state.finish o).document = s.document := by
  induction n generalizing before s with
  | zero =>
    have hmode : s.mode ≠ .string ∧ s.mode ≠ .bracket ∧ s.mode ≠ .value := by
      rcases h.mode with hmode | hmode <;> simp [hmode]
    rw [document_of_end (.inr rfl) hmode.1 hmode.2.1 (fun hvalue => absurd hvalue hmode.2.2),
      finishWords_eq_self h.mode]
  | succ n ih =>
    obtain ⟨htaken, houtside, hdocument⟩ := h.step ho hfree (closing n)
    have hrule : s.mode ≠ .atRule := by rcases h.mode with hmode | hmode <;> simp [hmode]
    rw [closing_succ, run_brace hrule (Prod.ext rfl htaken), ih houtside, hdocument]
    rw [oddBackslashes_cons]
    rfl

/-- In a value a closing brace ends the declaration as well. -/
theorem step_value_brace {rest : List Char} (hmode : s.mode = .value) (hfree : oddBackslashes before = false)
    (hrest : rest ≠ []) :
    s.step o ⟨before, '}' :: rest⟩ '}'
      = ({ popMode
            { (s.endDeclaration o).closeBlock o with returns := ((s.endDeclaration o).closeBlock o).returns.drop 1 }
            .selector with selector := "" }, 0) := by
  have htoken := atToken_brace hfree rest
  have hcomment : atComment ⟨before, '}' :: rest⟩ = false := rfl
  rw [step, hmode]
  simp [inValue, htoken, hcomment, hrest]

/-- **Closing braces at the end of a text** end the declaration or the at-rule there as the end itself does. -/
theorem document_of_closing (ho : o.preserveCss = false)
    (h : Tracked s atSign marks) (hstring : s.mode ≠ .string) (hbracket : s.mode ≠ .bracket)
    (hfree : oddBackslashes before = false) (n : Nat) :
    ((run o ⟨⟨before, closing (n + 1)⟩, s⟩).state.finish o).document = (s.finishWords o).document := by
  obtain ⟨base, pending, h⟩ := h
  have hsteady := h.ofMode rfl hbracket hstring
  have hreturns := hsteady.returns
  cases hmode : s.mode with
  | string => exact absurd hmode hstring
  | bracket => exact absurd hmode hbracket
  | selector =>
    rw [hmode, if_neg (by decide), nil_append] at hreturns
    have houtside : Outside s := ⟨.inl hmode, hreturns ▸ h.returnable⟩
    rw [houtside.document_run ho hfree, finishWords_eq_self houtside.mode]
  | property =>
    rw [hmode, if_neg (by decide), nil_append] at hreturns
    have houtside : Outside s := ⟨.inr hmode, hreturns ▸ h.returnable⟩
    rw [houtside.document_run ho hfree, finishWords_eq_self houtside.mode]
  | value =>
    rw [hmode, if_pos rfl] at hreturns
    have hstep := step_value_brace (o := o) hmode hfree (by simp [closing] : closing n ≠ [])
    have hdocument := document_closeBlock ho (s.endDeclaration o)
    have hmarks : ((s.endDeclaration o).closeBlock o).returns.drop 1 = marks := by
      obtain ⟨document, heq⟩ := closeBlock_eq o (s.endDeclaration o)
      rw [heq, (endDeclaration_keeps o s).2.1, hreturns]
      rfl
    rw [hmarks] at hstep
    generalize (s.endDeclaration o).closeBlock o = t at hstep hdocument
    have houtside : Outside { popMode { t with returns := marks } .selector with selector := "" } :=
      .popMode h.returnable _ _
    rw [closing_succ, run_brace (by simp [hmode]) hstep,
      houtside.document_run ho (by rw [oddBackslashes_cons]; rfl), popMode_eq, finishWords, hmode]
    exact hdocument
  | atRule =>
    rw [hmode, if_neg (by decide), nil_append] at hreturns
    have hbrace : atSharedBrace ⟨⟨before, closing (n + 1)⟩, s⟩ = true := by
      rw [atSharedBrace_iff]
      exact ⟨hmode, rfl, hfree⟩
    have hkept : (s.endAtRule o).returns = s.returns := by
      obtain ⟨document, new, -, heq⟩ := endAtRule_eq o s
      rw [heq]
    have houtside : Outside (s.endAtRule o) := by
      refine ⟨bodyMode_cases s.origin, ?_⟩
      rw [hkept, hreturns]
      exact h.returnable
    rw [← run_next, next_of_brace hbrace, houtside.document_run ho hfree, finishWords, hmode]

/-! ## Up to the end of the text -/

/-- The reader is in front of a backslash in a value or an at-rule, with one last space behind it that is no blank. -/
def atBareEscape (o : Options) (r : Reader) : Bool :=
  o.removeBackslash && (r.state.mode = .value || r.state.mode = .atRule) && r.cursor.atToken &&
    match r.cursor.rest with
    | ['\\', c, ' '] => isSpace c && c != ' '
    | _ => false

/-- The reader of a text and the one of the text with closing braces behind it, at the same place of the text. -/
def Inside (n : Nat) (r r' : Reader) : Prop :=
  ∃ before v, r.cursor = ⟨before, v ++ [' ']⟩ ∧ r'.cursor = ⟨before, v ++ closing (n + 1)⟩ ∧
    Alike Same r'.state r.state

/-- The two readers behind the text. What they make of the last escape in a selector or the name of a property may
differ, which comes to nothing. -/
structure Ended (n : Nat) (r r' : Reader) : Prop where
  rest : r.cursor.rest = [] ∨ r.cursor.rest = [' ']
  braces : r'.cursor.rest = closing (n + 1)
  state : Alike Same r'.state r.state ∨
    (r.state.mode = .selector ∨ r.state.mode = .property) ∧ r'.state.mode = r.state.mode ∧
      r'.state.document = r.state.document

theorem advance_append {v tail : List Char} (h : m ≤ v.length) :
    advance ⟨before, v ++ tail⟩ m = ⟨(v.take m).reverse ++ before, v.drop m ++ tail⟩ := by
  rw [advance, take_append_of_le_length h, drop_append_of_le_length h]

/-- A step that does not see the braces. -/
theorem inside_next (h : Alike Same s' s) (hcomment : atOpenComment ⟨⟨before, c :: w ++ [' ']⟩, s⟩ = false)
    (hescape : atEscape ⟨⟨before, c :: w ++ [' ']⟩, s⟩ → read o.removeBackslash (w ++ closing (n + 1)) = read
      o.removeBackslash (w ++ [' ']) ∧ takenLength (w ++ [' ']) ≤ w.length) :
    Inside n (Reader.next o ⟨⟨before, c :: w ++ [' ']⟩, s⟩)
      (Reader.next o ⟨⟨before, c :: w ++ closing (n + 1)⟩, s'⟩) := by
  have hshared : atSharedBrace ⟨⟨before, c :: w ++ closing (n + 1)⟩, s'⟩
      = atSharedBrace ⟨⟨before, c :: w ++ [' ']⟩, s⟩ := by
    rw [atSharedBrace, h.mode]
    rfl
  cases hbrace : atSharedBrace ⟨⟨before, c :: w ++ [' ']⟩, s⟩ with
  | true =>
    rw [next_of_brace hbrace, next_of_brace (hshared.trans hbrace)]
    exact ⟨before, c :: w, rfl, rfl, h.endAtRule (lasting_same o) ((atSharedBrace_iff _).mp hbrace).1⟩
  | false =>
    rw [next_of_cons (r := ⟨⟨before, c :: w ++ [' ']⟩, s⟩) rfl hbrace,
      next_of_cons (r := ⟨⟨before, c :: w ++ closing (n + 1)⟩, s'⟩) rfl (hshared.trans hbrace)]
    have hsees := Sees.of_closing hcomment fun hat => (hescape hat).1
    obtain ⟨halike, htaken⟩ := step_alike (lasting_same o) (h.countLine c) (hsees.countLine c) rfl
    have hle : ((s.countLine c).step o ⟨before, c :: w ++ [' ']⟩ c).2 + 1 ≤ (c :: w).length := by
      obtain ⟨line, heq⟩ := s.countLine_eq c
      rw [heq]
      exact Nat.succ_le_succ (taken_le hcomment fun hat => (hescape hat).2)
    simp only [htaken, advance_append hle]
    exact ⟨_, _, rfl, rfl, halike⟩

/-- A step at an escape. -/
theorem next_of_atEscape (h : r.atEscape) (hmore : r.cursor.rest.tail ≠ []) :
    r.next o = ⟨r.cursor.advance ((r.state.readEscape o r.cursor).2.2 + 1),
      (r.state.readEscape o r.cursor).2.1.putText (r.state.readEscape o r.cursor).1⟩ := by
  obtain ⟨tail, hcons⟩ := head?_eq_some_iff.mp h.2.2.2
  have hshared : r.atSharedBrace = false := by simp [atSharedBrace, hcons]
  have hline : r.state.countLine '\\' = r.state := rfl
  rw [next_of_cons hcons hshared, hline, step_of_atEscape h hmore]

theorem Alike.putText {R : Tie} (h : Alike R s' s) (text : String) : Alike R (s'.putText text) (s.putText text) := by
  unfold State.putText
  rw [h.mode]
  split
  · exact { h with mode := rfl, selector := congrArg (· ++ text) h.selector }
  · exact { h with mode := rfl, property := congrArg (· ++ text) h.property }
  · exact { h with mode := rfl, part := congrArg (· ++ text) h.part }

theorem document_putText (s : State) (text : String) : (s.putText text).document = s.document := by
  unfold putText
  split <;> rfl

/-- A lone backslash in front of the last space is dropped in selectors and names of properties at most. -/
theorem mode_of_not_bare {y : Char} (hat : r.atEscape) (hrest : r.cursor.rest = ['\\', y, ' '])
    (hdrop : o.removeBackslash = true) (hspace : isSpace y = true) (hblank : y ≠ ' ')
    (h : r.atBareEscape o = false) :
    r.state.mode = .selector ∨ r.state.mode = .property := by
  obtain ⟨hstring, hbracket, htoken, -⟩ := hat
  unfold atBareEscape at h
  rw [hdrop, htoken, hrest] at h
  cases hmode : r.state.mode with
  | selector => exact .inl rfl
  | property => exact .inr rfl
  | string => exact absurd hmode hstring
  | bracket => exact absurd hmode hbracket
  | value => simp [hmode, hspace, hblank] at h
  | atRule => simp [hmode, hspace, hblank] at h

/-- The last escape of a text. Braces behind the text make no difference for it, or it is where the text ends. -/
theorem ended_next (h : Alike Same s' s) (hat : atEscape ⟨⟨before, '\\' :: w ++ [' ']⟩, s⟩)
    (hbare : atBareEscape o ⟨⟨before, '\\' :: w ++ [' ']⟩, s⟩ = false) (hw : w ≠ []) :
    (read o.removeBackslash (w ++ closing (n + 1)) = read o.removeBackslash (w ++ [' ']) ∧
      takenLength (w ++ [' ']) ≤ w.length) ∨
    Ended n (Reader.next o ⟨⟨before, '\\' :: w ++ [' ']⟩, s⟩)
      (Reader.next o ⟨⟨before, '\\' :: w ++ closing (n + 1)⟩, s'⟩) := by
  have hat' : atEscape ⟨⟨before, '\\' :: w ++ closing (n + 1)⟩, s'⟩ := by
    rw [atEscape, h.mode]
    exact hat
  have halike := h.readEscape (o := o) ⟨before, '\\' :: w ++ closing (n + 1)⟩ ⟨before, '\\' :: w ++ [' ']⟩
  rw [next_of_atEscape hat (by simp), next_of_atEscape hat' (by simp [closing])]
  rcases read_closing o.removeBackslash hw (closing n) with hsame | ⟨hread, htaken⟩ | ⟨hdrop, y, rfl, hy⟩
  · exact .inl hsame
  · have hlength : (s.readEscape o ⟨before, '\\' :: w ++ [' ']⟩).2.2 = w.length + 1 := congrArg (·.length) hread
    have hlength' : (s'.readEscape o ⟨before, '\\' :: w ++ closing (n + 1)⟩).2.2 = w.length :=
      (length_read _ _).trans htaken
    have htext : (s'.readEscape o ⟨before, '\\' :: w ++ closing (n + 1)⟩).1
        = (s.readEscape o ⟨before, '\\' :: w ++ [' ']⟩).1 := (congrArg (·.text) hread).symm
    rw [hlength, hlength', htext]
    refine .inr ⟨.inl (by simp [advance]), ?_, .inl (halike.putText _)⟩
    show (advance ⟨before, '\\' :: w ++ closing (n + 1)⟩ ('\\' :: w).length).rest = closing (n + 1)
    rw [advance_append le_rfl, drop_length, nil_append]
  · obtain ⟨hspace, hblank, htaken', htaken⟩ := hy
    have hmode := mode_of_not_bare hat rfl hdrop hspace hblank hbare
    have hlength : (s.readEscape o ⟨before, ['\\', y] ++ [' ']⟩).2.2 = 1 := (length_read _ _).trans htaken
    have hlength' : (s'.readEscape o ⟨before, ['\\', y] ++ closing (n + 1)⟩).2.2 = 1 :=
      (length_read _ _).trans htaken'
    rw [hlength, hlength']
    refine .inr ⟨.inr rfl, rfl, .inr ?_⟩
    simp only [mode_putText, document_putText]
    refine ⟨?_, halike.mode, halike.document.1⟩
    rcases hread : s.readEscape o ⟨before, ['\\', y] ++ [' ']⟩ with ⟨text, t, taken⟩
    obtain ⟨line, new, -, rfl⟩ := readEscape_eq hread
    exact hmode

/-! ## Whole texts -/

/-- Unifying line ends leaves the backslashes at the end of a text alone. -/
theorem oddBackslashes_unifyLines (v : List Char) :
    oddBackslashes (unifyLines v).reverse = oddBackslashes v.reverse := by
  induction v using reverseRecOn with
  | nil => rfl
  | append_singleton v c ih =>
    rw [reverse_append, reverse_singleton, singleton_append, oddBackslashes_cons]
    by_cases hjoined : v.getLast? = some '\r' ∧ c = '\n'
    · -- one line end of two characters
      obtain ⟨hlast, rfl⟩ := hjoined
      obtain ⟨front, rfl⟩ := getLast?_eq_some_iff.mp hlast
      rw [append_assoc, unifyLines_append (.inr (by decide)), reverse_append]
      exact oddBackslashes_cons '\n' _
    · have hapart : v.getLast? ≠ some '\r' ∨ [c].head? ≠ some '\n' := by
        rw [head?_cons, Ne, Ne, Option.some_inj]
        exact not_and_or.mp hjoined
      have hsingle : unifyLines [c] = [if c == '\r' then '\n' else c] := by
        rw [unifyLines]
        · rfl
        · intro s _ hs
          cases hs
      have hc : ((if c == '\r' then '\n' else c) == '\\') = (c == '\\') := by
        split
        · next hreturn => rw [beq_iff_eq.mp hreturn]; rfl
        · rfl
      rw [unifyLines_append hapart, hsingle, reverse_append, reverse_singleton, singleton_append,
        oddBackslashes_cons, hc, ih]

theorem unifyLines_replicate (n : Nat) : unifyLines (replicate n '}') = replicate n '}' := by
  induction n with
  | zero => rfl
  | succ n ih =>
    rw [replicate_succ, unifyLines, ih]
    · rfl
    · intro s hreturn
      exact absurd hreturn (by decide)

theorem sourceText_braces (css : String) (n : Nat) :
    sourceText (css ++ String.ofList (replicate (n + 1) '}')) = unifyLines css.toList ++ closing (n + 1) := by
  have happend : unifyLines (css.toList ++ replicate (n + 1) '}')
      = unifyLines css.toList ++ unifyLines (replicate (n + 1) '}') := by
    refine unifyLines_append (.inr ?_)
    rw [replicate_succ, head?_cons]
    decide
  rw [sourceText, String.toList_append, String.toList_ofList, happend, unifyLines_replicate, closing, append_assoc]

/-- The blank behind a text leaves strings and functions open. -/
theorem mode_run_of_end (hrest : r.cursor.rest = [] ∨ r.cursor.rest = [' ']) (hquote : IsQuote r.state.quote)
    (h : r.state.mode = .string ∨ r.state.mode = .bracket) : (r.run o).state.mode = r.state.mode := by
  rcases hrest with hrest | hrest
  · rw [run_of_nil hrest]
  rw [state_run_of_blank hrest, step]
  rcases h with h | h
  · have hblank : ' ' ≠ r.state.quote := by
      rcases hquote with hquote | hquote <;> rw [hquote] <;> decide
    simp [h, inString, hblank]
  · obtain ⟨part, heq⟩ := pushArgument_eq r.state ' '
    simp [h, inBracket, isSpace, heq]

/-- A stylesheet that ends outside of comments, strings and functions, and not behind a backslash that waits for the
character it escapes. Blocks, declarations and at-rules may be open. -/
structure Closable (o : Options) (css : String) : Prop where
  comments : ∀ n, (after o css n).atOpenComment = false
  backslashes : oddBackslashes css.toList.reverse = false
  string : (run o (start css)).state.mode ≠ .string
  bracket : (run o (start css)).state.mode ≠ .bracket

variable {css : String}

theorem Closable.of_steps (hrest : (after o css m).cursor.rest = [])
    (hcomments : ∀ n ≤ m, (after o css n).atOpenComment = false) (hodd : oddBackslashes css.toList.reverse = false)
    (hmode : (after o css m).state.mode ≠ .string ∧ (after o css m).state.mode ≠ .bracket) : Closable o css where
  comments := forall_after (·.atOpenComment = false) m hrest hcomments
  backslashes := hodd
  string := by rw [run_start_eq hrest]; exact hmode.1
  bracket := by rw [run_start_eq hrest]; exact hmode.2

section

variable (h : Closable o css)
include h

/-- A backslash that escapes something is not the last character of the text. -/
theorem Closable.ne_nil_of_atEscape (hcursor : (after o css m).cursor = ⟨before, '\\' :: w ++ [' ']⟩)
    (hat : (after o css m).atEscape) : w ≠ [] := by
  rintro rfl
  have htext : before.reverse ++ ['\\'] = unifyLines css.toList := by
    have := text_after o css m
    rw [hcursor, sourceText, Cursor.text, ← append_assoc] at this
    exact append_cancel_right this
  have hfree : oddBackslashes before = false := by
    have := hat.2.2.1
    rw [atToken, hcursor, escaped] at this
    simpa using (Bool.and_eq_true_iff.mp this).2
  have hodd := h.backslashes
  rw [← oddBackslashes_unifyLines, ← htext, reverse_append, reverse_reverse, reverse_singleton,
    singleton_append, oddBackslashes_cons, hfree] at hodd
  exact absurd hodd (by decide)

/-- The readers of a text and of the text with braces behind it go the same way up to its end. -/
theorem Closable.inside_or_ended (hbare : ∀ m, (after o css m).atBareEscape o = false)
    (n m : Nat) :
    Inside n (after o css m) (after o (css ++ String.ofList (replicate (n + 1) '}')) m) ∨
      ∃ m, Ended n (after o css m) (after o (css ++ String.ofList (replicate (n + 1) '}')) m) := by
  generalize htext : css ++ String.ofList (replicate (n + 1) '}') = text
  induction m with
  | zero =>
    refine .inl ⟨[], unifyLines css.toList, rfl, ?_, .refl _⟩
    rw [after_zero, start, ← htext, sourceText_braces, Cursor.start]
  | succ m ih =>
    rcases ih with ⟨before, v, hcursor, hcursor', hstate⟩ | hended
    · have hafter : after o css m = ⟨⟨before, v ++ [' ']⟩, (after o css m).state⟩ := by rw [← hcursor]
      have hafter' : after o text m = ⟨⟨before, v ++ closing (n + 1)⟩, (after o text m).state⟩ := by rw [← hcursor']
      cases v with
      | nil => exact .inr ⟨m, .inr (by rw [hcursor]; rfl), by rw [hcursor']; rfl, .inl hstate⟩
      | cons c w =>
        have hcomment := hafter ▸ h.comments m
        by_cases hat : (after o css m).atEscape
        · have hc : c = '\\' := by simpa [hcursor] using hat.2.2.2
          subst hc
          have hw := h.ne_nil_of_atEscape hcursor hat
          rcases ended_next (n := n) hstate (hafter ▸ hat) (hafter ▸ hbare m) hw with hsame | hended
          · rw [after_succ, after_succ, hafter, hafter']
            exact .inl (inside_next hstate hcomment fun _ => hsame)
          · refine .inr ⟨m + 1, ?_⟩
            rw [after_succ, after_succ, hafter, hafter']
            exact hended
        · rw [after_succ, after_succ, hafter, hafter']
          exact .inl (inside_next hstate hcomment fun hat' => absurd (hafter ▸ hat') hat)
    · exact .inr hended

theorem Closable.exists_ended (hbare : ∀ m, (after o css m).atBareEscape o = false) (n : Nat) :
    ∃ m, Ended n (after o css m) (after o (css ++ String.ofList (replicate (n + 1) '}')) m) := by
  obtain ⟨m, hm⟩ := run_start_eq_after o css
  refine (h.inside_or_ended hbare n m).resolve_left ?_
  rintro ⟨before, v, hcursor, -, -⟩
  have hrest := run_rest o (start css)
  rw [hm, hcursor] at hrest
  exact absurd hrest (by simp)

/-- Where the text ends, it ends outside of strings and functions. -/
theorem Closable.mode_of_end (hrest : (after o css m).cursor.rest = [] ∨ (after o css m).cursor.rest = [' ']) :
    (after o css m).state.mode ≠ .string ∧ (after o css m).state.mode ≠ .bracket := by
  have hrun := mode_run_of_end (o := o) hrest (after_quote o css m)
  rw [run_after] at hrun
  refine ⟨fun hstring => ?_, fun hbracket => ?_⟩
  · exact h.string ((hrun (.inl hstring)).trans hstring)
  · exact h.bracket ((hrun (.inr hbracket)).trans hbracket)

/-- Behind a text that does not end in a backslash nothing is escaped. -/
theorem Closable.free_of_braces (hrest : (after o (css ++ String.ofList (replicate (n + 1) '}')) m).cursor.rest = closing (n + 1)) :
    oddBackslashes (after o (css ++ String.ofList (replicate (n + 1) '}')) m).cursor.before = false := by
  have htext := text_after o (css ++ String.ofList (replicate (n + 1) '}')) m
  rw [sourceText_braces, Cursor.text, hrest] at htext
  rw [← reverse_reverse (before _), append_cancel_right htext, oddBackslashes_unifyLines]
  exact h.backslashes

end

/-- A value stands behind the name of a property. -/
theorem Tracked.returns_of_value (h : Tracked s atSign marks)
    (hmode : s.mode = .value) : s.returns.head? = some .property := by
  obtain ⟨base, pending, hsteady⟩ := h
  rw [(hsteady.ofMode rfl (by simp [hmode]) (by simp [hmode])).returns, if_pos hmode]
  rfl

/-- Behind the text both readers come to the same document. -/
theorem Ended.document_eq (ho : o.preserveCss = false) {r' : Reader} (h : Ended n r r') {atSign' : Mode}
    {marks' : List Mode} (htracked : Tracked r.state atSign marks) (htracked' : Tracked r'.state atSign' marks')
    (hstring : r.state.mode ≠ .string) (hbracket : r.state.mode ≠ .bracket)
    (hfree : oddBackslashes r'.cursor.before = false) :
    ((r'.run o).state.finish o).document = ((r.run o).state.finish o).document := by
  have hmode : r'.state.mode = r.state.mode := by
    rcases h.state with hstate | hstate
    · exact hstate.mode
    · exact hstate.2.1
  have hbraces := document_of_closing ho htracked' (hmode ▸ hstring) (hmode ▸ hbracket) hfree n
  rw [← h.braces] at hbraces
  refine hbraces.trans (Eq.trans ?_ (document_of_end h.rest hstring hbracket htracked.returns_of_value).symm)
  rcases h.state with hstate | ⟨hname, -, hdocument⟩
  · exact (hstate.finishWords (lasting_same o)).document.1
  · rw [finishWords_eq_self (hmode ▸ hname), finishWords_eq_self hname, hdocument]

/-- **The end of a stylesheet closes what is open.** Closing braces behind the stylesheet, one for each open block or
any other number of them, make no difference for its document, unless a lone backslash is dropped where it ends. -/
theorem read_append_braces (ho : o.preserveCss = false) (h : Closable o css)
    (hbare : ∀ m, (after o css m).atBareEscape o = false) (n : Nat) :
    (Document.read o (css ++ String.ofList (List.replicate n '}'))).1 = (Document.read o css).1 := by
  cases n with
  | zero => rw [List.replicate_zero, String.ofList_nil, String.append_empty]
  | succ n =>
    obtain ⟨m, hended⟩ := h.exists_ended hbare n
    obtain ⟨hstring, hbracket⟩ := h.mode_of_end hended.rest
    have htracked := Trail.after_tracked o css m
    have htracked' := Trail.after_tracked o (css ++ String.ofList (List.replicate (n + 1) '}')) m
    rw [Trail.reader_after] at htracked htracked'
    unfold Document.read
    rw [← run_after o css m, ← run_after o (css ++ String.ofList (List.replicate (n + 1) '}')) m]
    exact hended.document_eq ho htracked htracked' hstring hbracket (h.free_of_braces hended.braces)

/-- A declaration that is open inside of two blocks. -/
def nestedDeclaration : String := "@media tv\x7ba\x7bb:c"

/-- Two braces close the blocks of `nestedDeclaration`, and so does its end. -/
theorem read_append_braces_nestedDeclaration :
    Closable {} nestedDeclaration ∧ (run {} (start nestedDeclaration)).state.openBlocks.length = 2 ∧
      (Document.read {} (nestedDeclaration ++ String.ofList (List.replicate 2 '}'))).1
        = (Document.read {} nestedDeclaration).1 := by
  have hrest : (after {} nestedDeclaration 12).cursor.rest = [] := by decide +kernel
  have hopen : (run {} (start nestedDeclaration)).state.openBlocks.length = 2 := by
    rw [run_start_eq hrest]
    decide +kernel
  have hclosable : Closable {} nestedDeclaration :=
    .of_steps hrest (by decide +kernel) (by decide +kernel) (by decide +kernel)
  refine ⟨hclosable, hopen, read_append_braces rfl hclosable ?_ 2⟩
  exact forall_after (atBareEscape {} · = false) 12 hrest (by decide +kernel)

/-- A value that ends in a lone backslash, with the space behind it. -/
def loneBackslash : String := "a\x7bcolor:red\\\n"

/-- **A closing brace keeps the backslash** that the end of the text drops: there is a token then behind the space that
ends the escape. -/
theorem read_append_brace_loneBackslash :
    Closable {} loneBackslash ∧ (run {} (start loneBackslash)).state.openBlocks.length = 1 ∧
      (Document.read {} (loneBackslash ++ String.ofList (List.replicate 1 '}'))).1
        ≠ (Document.read {} loneBackslash).1 := by
  have hrest : (after {} loneBackslash 12).cursor.rest = [] := by decide +kernel
  have hopen : (run {} (start loneBackslash)).state.openBlocks.length = 1 := by
    rw [run_start_eq hrest]
    decide +kernel
  have hclosable : Closable {} loneBackslash :=
    .of_steps hrest (by decide +kernel) (by decide +kernel) (by decide +kernel)
  refine ⟨hclosable, hopen, fun heq => ?_⟩
  have hdropped := read_view (fun d => (d.get? ⟨1⟩).map (·.declarations.entries)) {} loneBackslash 12 hrest
    (by decide +kernel : _ = some [("color", ⟨"red", false⟩)])
  have hkept := read_view (fun d => (d.get? ⟨1⟩).map (·.declarations.entries)) {}
    (loneBackslash ++ String.ofList (List.replicate 1 '}')) 12 (by decide +kernel)
    (by decide +kernel : _ = some [("color", ⟨"red\\", false⟩)])
  rw [heq, hdropped] at hkept
  exact absurd hkept (by decide)

end Stylesheet.Reader
