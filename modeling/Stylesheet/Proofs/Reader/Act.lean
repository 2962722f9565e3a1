import Stylesheet.Proofs.Reader.Moves
import Stylesheet.Proofs.Reader.Run
import Stylesheet.Proofs.Reader.Step

/-!
# What a step is made of

Whatever a step does, buffers aside, is one of a few things after the other. It may begin by taking characters along or
with an at-sign (`Start`). Behind that it turns to another mode, says something, opens or closes a block, or ends a
declaration or an at-rule (`Act`). `step_acts` says so for all steps, and `finishBracket_acts` for the end of the text. An
invariant that does not look at the buffers is kept by every step if it is kept by each of these.
-/

namespace Stylesheet.Reader

open Text (Cursor)
open State

/-- The quotes that a string can start with. -/
def IsQuote (c : Char) : Prop := c = '"' ∨ c = '\''

namespace State

/-- Two states that differ in buffers only. -/
def Still (s t : State) : Prop :=
  t = { s with
    selector := t.selector, property := t.property, part := t.part, parts := t.parts, string := t.string
    keepQuotes := t.keepQuotes, function := t.function, depth := t.depth, origin := t.origin }

variable {s t u : State}

theorem Still.trans (h : s.Still t) (h' : t.Still u) : s.Still u := by
  rw [Still] at h h' ⊢
  rw [h', h]

theorem still_pushArgument (s : State) (c : Char) : s.Still (s.pushArgument c) := by
  obtain ⟨part, heq⟩ := pushArgument_eq s c
  rw [heq]
  rfl

end State

/-- How a step at a cursor begins, and how many characters it takes along. -/
inductive Start (o : Options) (k : Cursor) (c : Char) : State → State → Nat → Prop
  | stay (s : State) : Start o k c s s 0
  | run {s t : State} (h : s.Still t) : Start o k c s t (readRun k c).2
  | comment (s : State) (h : atComment k = true) : Start o k c s (s.readComment o k).1 (s.readComment o k).2
  | escape {s t : State} {text : String} {n : Nat} (h : s.readEscape o k = (text, t, n)) : Start o k c s t n
  | atSign (s : State) (hc : c = '@') (hmode : s.mode = .selector ∨ s.mode = .property) :
      Start o k c s { s with mode := .atRule } 0

/-- What else a step does that began in some state. -/
inductive Act (o : Options) (first : State) : State → State → Prop
  | write {s t : State} (h : s.Still t) : Act o first s t
  | say (s : State) (severity : Severity) (text : String) :
      Act o first s (s.say [⟨.parser, severity, s.line, text⟩])
  | quote (s : State) {quote : Char} (h : IsQuote quote) : Act o first s { s with quote }
  | valueLine (s : State) : Act o first s { s with valueLine := s.line }
  | enter (s : State) {mode back : Mode} (h : mode ≠ .atRule) (hback : s.mode = back) :
      Act o first s (s.pushMode mode back)
  | leave (s : State) {otherwise : Mode} (h : otherwise ≠ .atRule) : Act o first s (s.popMode otherwise)
  | skip (s : State) : Act o first s { s with returns := s.returns.drop 1 }
  | openSelector (s : State) : Act o first s (s.openSelector o)
  | openAtBlock (s : State) (h : s.mode = .atRule) (body : List Char) : Act o first s (s.openAtBlock o body)
  | closeBlock (s : State) : Act o first s (s.closeBlock o)
  /-- The declaration is the one that the step found. -/
  | endDeclaration (s : State) (h : first.mode = .value) (hsame : s.declaration? o = first.declaration? o) :
      Act o first s (s.endDeclaration o)
  | endAtRule (s : State) (h : s.mode = .atRule) : Act o first s (s.endAtRule o)

/-- The beginning of a step and some of the acts behind it. -/
inductive Acts (o : Options) (k : Cursor) (c : Char) (first : State) : State → Nat → Prop
  | start {t : State} {n : Nat} (h : Start o k c first t n) : Acts o k c first t n
  | act {t u : State} {n : Nat} (h : Acts o k c first t n) (h' : Act o first t u) : Acts o k c first u n

namespace Acts

variable {o : Options} {k : Cursor} {c : Char} {s t : State} {n : Nat}

theorem single (h : Act o s s t) : Acts o k c s t 0 := .act (.start (.stay s)) h

theorem write (h : s.Still t) : Acts o k c s t 0 := .single (.write h)

/-- Writing to buffers and turning to another mode. -/
theorem enter {mode back : Mode} (h : s.Still t) (hmode : mode ≠ .atRule) (hback : t.mode = back) :
    Acts o k c s (t.pushMode mode back) 0 := (write h).act (.enter t hmode hback)

theorem beginString (s : State) {quote : Char} (hquote : IsQuote quote) (keepQuotes : Bool) :
    Acts o k c s (s.beginString quote keepQuotes) 0 := by
  have hbuffers : Acts o k c s { s with string := String.singleton quote, quote, keepQuotes } 0 :=
    (single (.quote s hquote)).act (.write rfl)
  exact hbuffers.act (.enter _ (by decide) rfl)

theorem closeString (h : Acts o k c s t n) : Acts o k c s (t.closeString o) n := by
  obtain ⟨selector, part, heq, -⟩ := closeString_eq o t
  have hleft := h.act (.leave t (by decide : Mode.value ≠ .atRule))
  rw [popMode_eq] at hleft
  rw [heq]
  exact hleft.act (.write rfl)

/-- Going back to the name of a property and ending the declaration. -/
theorem endDeclaration (h : Acts o k c s t n) (hmode : s.mode = .value) (hsame : t.declaration? o = s.declaration? o) :
    Acts o k c s ((t.popMode .property).endDeclaration o) n := by
  refine (h.act (.leave t (by decide))).act (.endDeclaration _ hmode ?_)
  rw [← hsame, popMode_eq]
  exact declaration?_congr rfl rfl rfl rfl rfl

end Acts

/-! ## Steps -/

section Steps

variable {o : Options} {s : State} (k : Cursor) (c : Char)

theorem inSelector_acts (hmode : s.mode = .selector) : Acts o k c s (s.inSelector o k c).1 (s.inSelector o k c).2 := by
  apply inSelector_cases (P := Acts o k c s)
  case space =>
    intro _ _
    obtain ⟨selector, heq⟩ := spaceSelector_eq s
    rw [heq]
    exact .write rfl
  case run => exact fun _ _ => .start (.run rfl)
  case comment => exact fun _ h => .start (.comment s h)
  case brace => exact fun _ _ => .single (.openSelector s)
  case atSign => exact fun _ hc _ => (Acts.start (.atSign s hc (.inl hmode))).act (.write rfl)
  case quote => exact fun _ hc => .beginString s hc _
  case close => exact fun _ _ => ((Acts.single (.closeBlock s)).act (.leave _ (by decide))).act (.write rfl)
  case escape => exact fun _ _ _ _ _ h => (Acts.start (.escape h)).act (.write rfl)
  case universal => exact fun _ _ _ => .single (.say s _ _)
  all_goals intros; exact .write rfl

theorem inProperty_acts (hmode : s.mode = .property) : Acts o k c s (s.inProperty o k c).1 (s.inProperty o k c).2 := by
  apply inProperty_cases (P := Acts o k c s)
  case run => exact fun _ _ => .start (.run rfl)
  case value => exact fun _ _ _ => (Acts.single (.valueLine s)).act (.enter _ (by decide) hmode)
  case comment => exact fun _ h => .start (.comment s h)
  case close => exact fun _ _ => ((Acts.single (.closeBlock s)).act (.leave _ (by decide))).act (.write rfl)
  case atSign => exact fun _ hc _ => (Acts.start (.atSign s hc (.inr hmode))).act (.write rfl)
  case escape => exact fun _ _ _ _ _ h => (Acts.start (.escape h)).act (.write rfl)
  all_goals intros; exact .write rfl

theorem inWords_acts : Acts o k c s (s.inWords k c).1 (s.inWords k c).2 :=
  inWords_cases (P := Acts o k c s) (fun _ => .write rfl) (fun _ => .start (.run rfl))

theorem inValue_acts (hmode : s.mode = .value) : Acts o k c s (s.inValue o k c).1 (s.inValue o k c).2 := by
  have hstay : Acts o k c s s 0 := .start (.stay s)
  apply inValue_cases (P := Acts o k c s)
  case last => exact fun _ => hstay.endDeclaration hmode rfl
  case inferred =>
    exact fun _ _ => (Acts.single (.say s _ _)).endDeclaration hmode (declaration?_congr rfl rfl rfl rfl rfl)
  case words => exact fun _ _ => inWords_acts k c
  case comment => exact fun _ h => .start (.comment s h)
  case quote => exact fun _ hc => .beginString s hc _
  case bracket => exact fun _ _ => .enter rfl (by decide) hmode
  case escape => exact fun _ _ _ _ _ h => (Acts.start (.escape h)).act (.write rfl)
  case semicolon => exact fun _ _ => hstay.endDeclaration hmode rfl
  case close =>
    intro _ _
    have hclosed : Acts o k c s ((s.endDeclaration o).closeBlock o) 0 :=
      (Acts.single (.endDeclaration s hmode rfl)).act (.closeBlock _)
    generalize (s.endDeclaration o).closeBlock o = t at hclosed
    exact ((hclosed.act (.skip t)).act (.leave _ (by decide))).act (.write rfl)
  all_goals intros; exact .write rfl

theorem inBracket_acts : Acts o k c s (s.inBracket k c).1 (s.inBracket k c).2 := by
  have hdepth (depth : Nat) : Acts o k c s (pushArgument { s with depth } c) 0 :=
    .write (Still.trans (t := { s with depth }) rfl (still_pushArgument _ c))
  apply inBracket_cases (P := Acts o k c s)
  case run => exact fun _ => .start (.run rfl)
  case quote => exact fun _ hc => .beginString s hc _
  case close => exact fun _ _ _ => ((hdepth _).act (.leave _ (by decide))).act (.write rfl)
  case deeper => exact fun _ _ => hdepth _
  case shallower => exact fun _ _ _ => hdepth _
  all_goals intros; exact .write (still_pushArgument s _)

theorem inString_acts : Acts o k c s (s.inString o k c).1 (s.inString o k c).2 := by
  have hpush (string : String) : Acts o k c s { s with string } 0 := .write rfl
  apply inString_cases (P := Acts o k c s)
  case newline => exact fun _ _ => (hpush _).act (.say _ _ _)
  case close => exact fun _ _ => (hpush _).closeString
  case other => exact hpush _

theorem inAtRule_acts (hmode : s.mode = .atRule) : Acts o k c s (s.inAtRule o k c).1 (s.inAtRule o k c).2 := by
  apply inAtRule_cases (P := Acts o k c s)
  case words => exact fun _ => inWords_acts k c
  case comment => exact fun _ h => .start (.comment s h)
  case quote => exact fun _ hc => .beginString s hc _
  case bracket => exact fun _ _ => .enter rfl (by decide) hmode
  case semicolon => exact fun _ _ => .single (.endAtRule s hmode)
  case brace => exact fun _ _ => .single (.openAtBlock s hmode _)
  case escape => exact fun _ _ _ _ _ h => (Acts.start (.escape h)).act (.write rfl)
  all_goals intros; exact .write rfl

end Steps

/-- **A step** is made of acts. -/
theorem step_acts (o : Options) (s : State) (k : Cursor) (c : Char) : Acts o k c s (s.step o k c).1 (s.step o k c).2 := by
  unfold step
  split
  · next hmode => exact inSelector_acts k c hmode
  · next hmode => exact inProperty_acts k c hmode
  · next hmode => exact inValue_acts k c hmode
  · exact inString_acts k c
  · exact inBracket_acts k c
  · next hmode => exact inAtRule_acts k c hmode

/-- The end of the text, up to the declaration or the at-rule that it ends. -/
theorem finishBracket_acts (o : Options) (s : State) (k : Cursor) (c : Char) :
    Acts o k c s (s.finishString o).finishBracket 0 := by
  have hstring : Acts o k c s (s.finishString o) 0 := by
    unfold finishString
    split
    · exact Acts.closeString ((Acts.single (.say s _ _)).act (.write rfl))
    · exact .start (.stay s)
  generalize s.finishString o = t at hstring
  unfold finishBracket
  split
  · refine Acts.act ?_ (.leave _ (by decide))
    exact (hstring.act (.say t _ _)).act (.write rfl)
  · exact hstring

/-! ## Quotes

The quote that a string ends with is only changed where a string starts. -/

theorem Act.quote_of {first : State} (h : Act o first s t) (hs : IsQuote s.quote) : IsQuote t.quote := by
  cases h with
  | write h => rwa [h]
  | quote h => exact h
  | leave => rwa [popMode_eq]
  | openSelector =>
    obtain ⟨id, document, heq⟩ := openSelector_eq o s
    rwa [heq]
  | openAtBlock _ body =>
    obtain ⟨document, heq⟩ := openAtBlock_eq o s body
    rwa [heq]
  | closeBlock =>
    obtain ⟨document, heq⟩ := closeBlock_eq o s
    rwa [heq]
  | endDeclaration =>
    obtain ⟨document, heq⟩ := exists_endDeclaration_eq o s
    rwa [heq]
  | endAtRule =>
    obtain ⟨document, new, -, heq⟩ := endAtRule_eq o s
    rwa [heq]
  | _ => exact hs

theorem Acts.quote_of (h : Acts o k c s t n) (hs : IsQuote s.quote) : IsQuote t.quote := by
  induction h with
  | start h =>
    cases h with
    | run h => rwa [h]
    | comment =>
      obtain ⟨line, document, heq⟩ := readComment_eq o s k
      rwa [heq]
    | escape h =>
      obtain ⟨line, new, -, rfl⟩ := readEscape_eq h
      exact hs
    | _ => exact hs
  | act _ hact ih => exact hact.quote_of ih

theorem after_quote (o : Options) (css : String) (n : Nat) : IsQuote (after o css n).state.quote := by
  refine after_induction (P := fun r => IsQuote r.state.quote) (.inl rfl) (fun r hrest h => ?_) n
  refine next_cases (P := fun r' => IsQuote r'.state.quote) hrest (fun _ => ?_)
    (fun c _ _ _ => (step_acts o _ _ c).quote_of ?_)
  · obtain ⟨document, new, -, heq⟩ := endAtRule_eq o r.state
    rwa [heq]
  · obtain ⟨line, heq⟩ := r.state.countLine_eq c
    rwa [heq]

end Stylesheet.Reader
