import Stylesheet.Proofs.Reader.View

/-!
# Reading words, blanks and tokens

In each mode, what a word, a blank and each of the tokens make of the view. Under plain options nothing else of a state
has a part in it. A value or the words of an at-rule are read as `Value.partsOf` says (`reads_parts`).
-/

namespace Stylesheet

open String (ofList)

/-- A header stays empty as long as it stays the same. -/
theorem Document.Headless.of_header {d e : Document} (h : d.Headless) (heq : e.header = d.header) : e.Headless := by
  simp only [Document.header, Prod.mk.injEq] at heq
  exact ⟨heq.1.trans h.charset, heq.2.2.trans h.imports, heq.2.1.trans h.namespaces⟩

namespace Reader

open Text State

variable {o : Options} {tail : List Char} {s : State}

/-! ## Selectors -/

section Pieces

variable {c : Char} {name : String} {back : Mode} {v : View} {rest : List String}
variable {returns : List Mode} {frames : List Frame} {f g : Frame} {fs : List Frame} {selector property word : String}
  {parts : Value.Parts}

theorem step_selector (h : s.mode = .selector) (k : Text.Cursor) (c : Char) : s.step o k c = s.inSelector o k c := by
  rw [step, h]

theorem step_property (h : s.mode = .property) (k : Text.Cursor) (c : Char) : s.step o k c = s.inProperty o k c := by
  rw [step, h]

theorem step_value (h : s.mode = .value) (k : Text.Cursor) (c : Char) : s.step o k c = s.inValue o k c := by
  rw [step, h]

theorem step_atRule (h : s.mode = .atRule) (k : Text.Cursor) (c : Char) : s.step o k c = s.inAtRule o k c := by
  rw [step, h]

/-- A selector with space behind it. -/
def spaced (selector : String) : String :=
  match last? selector with
  | none => selector
  | some c => if c == ',' || c == ' ' then selector else selector.push ' '

theorem spaceSelector_spaced (s : State) : s.spaceSelector = { s with selector := spaced s.selector } := by
  unfold spaceSelector spaced
  cases last? s.selector with
  | none => rfl
  | some c =>
    simp only
    split <;> rfl

theorem reads_selector_word (hword : IsWord word) (hstop : Stops tail) :
    Reads o tail { mode := .selector, returns, frames, selector } word
      { mode := .selector, returns, frames, selector := selector ++ word } :=
  reads_word (by simp) hword hstop.exists_mem

theorem reads_selector_blank (hc : c = ' ' ∨ c = '\n') :
    Reads o tail { mode := .selector, returns, frames, selector } (ofList [c])
      { mode := .selector, returns, frames, selector := spaced selector } := by
  refine .of_blank hc fun s k hs _ htoken hspace => ⟨{ s with selector := spaced s.selector }, ?_, ?_⟩
  · rw [step_selector hs.mode]
    simp only [inSelector, htoken, hspace, Bool.not_false, if_true, spaceSelector_spaced]
  · exact ⟨hs.mode, hs.returns, hs.builds, hs.origin, congrArg spaced hs.selector, hs.property, hs.word, hs.done,
      hs.headless⟩

theorem reads_selector_comma (htrim : trim selector = selector) :
    Reads o tail { mode := .selector, returns, frames, selector } ","
      { mode := .selector, returns, frames, selector := selector ++ "," } := by
  refine Reads.of_token (c := ',') (by decide) (by decide) nofun fun s k hs _ htoken hcomment => ?_
  refine ⟨{ s with selector := selector ++ "," }, ?_, ?_⟩
  · have hselector : trim s.selector = selector := by rw [hs.selector, htrim]
    rw [step_selector hs.mode]
    simp [inSelector, htoken, hcomment, hselector]
  · exact ⟨hs.mode, hs.returns, hs.builds.congr rfl rfl, hs.origin, rfl, hs.property, hs.word, hs.done, hs.headless⟩

/-- A brace opens the selector in front of it. -/
theorem reads_selector_open (ho : o.Plain) (hname : trim selector = name) :
    Reads o tail { mode := .selector, returns, frames := f :: fs, selector } "\x7b"
      (.bare .property (.selector :: returns) ((f.enter name).1 :: (f.enter name).2 :: fs)) := by
  refine Reads.of_token (c := '{') (by decide) (by decide) nofun fun s k hs hrest htoken hcomment => ?_
  refine ⟨s.openSelector o, ?_, ?_⟩
  · rw [step_selector hs.mode]
    simp [inSelector, htoken, hcomment]
  · have hbuilds := openSelector_builds_enter ho hs.builds
    have hheadless := hs.headless.of_header (header_openSelector (o := o) s)
    rw [hs.selector, hname] at hbuilds
    obtain ⟨id, document, heq⟩ := openSelector_eq o s
    generalize s.openSelector o = t at heq hbuilds hheadless ⊢
    subst heq
    exact ⟨rfl, congrArg (Mode.selector :: ·) hs.returns, hbuilds, nofun, rfl, hs.property, hs.word, hs.done, hheadless⟩

/-- An at-sign starts an at-rule. -/
theorem reads_selector_at :
    Reads o tail (.bare .selector returns frames) "@" (.bare .atRule returns frames) := by
  refine Reads.of_token (c := '@') (by decide) (by decide) nofun fun s k hs hrest htoken hcomment => ?_
  refine ⟨{ s with selector := "", origin := .rules, mode := .atRule }, ?_, ?_⟩
  · have hempty : (trim s.selector).isEmpty = true := by
      have htrim : (trim "").isEmpty = true := by decide
      rw [hs.selector]
      exact htrim
    rw [step_selector hs.mode]
    simp [inSelector, htoken, hcomment, hempty]
  · exact ⟨rfl, hs.returns, hs.builds, fun _ => rfl, rfl, hs.property, hs.word, hs.done, hs.headless⟩

/-- What a brace leaves behind that closes a block between rules or declarations. -/
theorem shows_closeBlock {property' : String} (hs : Shows s v)
    (hreturns : v.returns = back :: returns) (hframes : v.frames = f :: g :: fs) (hparts : v.parts = {})
    (hback : back = .selector ∨ back = .property) (hproperty : property' = "") :
    Shows { (s.closeBlock o).popMode .selector with selector := "", property := property' }
      (.bare back returns (f.close g :: fs)) := by
  have hbuilds := hs.builds
  rw [hframes] at hbuilds
  have hclosed := closeBlock_builds (o := o) hbuilds
  have hheadless := hs.headless.of_header (header_closeBlock (o := o) s)
  have hstack := hs.returns
  have hword := hs.word
  have hdone := hs.done
  rw [hreturns] at hstack
  rw [hparts] at hword hdone
  obtain ⟨document, heq⟩ := closeBlock_eq o s
  rw [popMode_eq]
  generalize s.closeBlock o = t at heq hclosed hheadless ⊢
  subst heq
  refine ⟨?_, ?_, hclosed, ?_, rfl, hproperty, hword, hdone, hheadless⟩
  · show s.returns.head?.getD .selector = back
    rw [hstack]
    rfl
  · show s.returns.tail = returns
    rw [hstack]
    rfl
  · rcases hback with rfl | rfl <;> exact nofun

theorem reads_selector_close (hback : back = .selector ∨ back = .property) :
    Reads o tail (.bare .selector (back :: returns) (f :: g :: fs)) "\x7d"
      (.bare back returns (f.close g :: fs)) := by
  refine Reads.of_token (c := '}') (by decide) (by decide) nofun fun s k hs hrest htoken hcomment => ?_
  refine ⟨{ (s.closeBlock o).popMode .selector with selector := "" }, ?_, ?_⟩
  · rw [step_selector hs.mode]
    simp [inSelector, htoken, hcomment]
  · have hproperty : ((s.closeBlock o).popMode .selector).property = "" := by
      obtain ⟨document, heq⟩ := closeBlock_eq o s
      rw [popMode_eq, heq]
      exact hs.property
    exact shows_closeBlock hs rfl rfl rfl hback hproperty

/-! ## Properties -/

theorem reads_property_word (hword : IsWord word) (hstop : Stops tail) :
    Reads o tail { mode := .property, returns, frames, property } word
      { mode := .property, returns, frames, property := property ++ word } :=
  reads_word (by simp) hword hstop.exists_mem

theorem reads_property_blank (hc : c = ' ' ∨ c = '\n') :
    Reads o tail (.bare .property returns frames) (ofList [c]) (.bare .property returns frames) := by
  refine .of_blank hc fun s k hs _ htoken hspace => ⟨s, ?_, hs⟩
  rw [step_property hs.mode]
  simp only [inProperty, htoken, hspace, Bool.not_false, if_true]

/-- A colon starts the value. -/
theorem reads_property_colon (hproperty : IsWord property) :
    Reads o tail { mode := .property, returns, frames, property } ":"
      { mode := .value, returns := .property :: returns, frames, property } := by
  refine Reads.of_token (c := ':') (by decide) (by decide) nofun fun s k hs hrest htoken hcomment => ?_
  refine ⟨{ s with valueLine := s.line }.pushMode .value .property, ?_, ?_⟩
  · have hempty : (trim s.property).isEmpty = false := by
      rw [hs.property]
      have hne := hproperty.ne_empty
      simpa [hproperty.trim_eq] using hne
    rw [step_property hs.mode]
    simp [inProperty, htoken, hempty]
  · exact ⟨rfl, congrArg (Mode.property :: ·) hs.returns, hs.builds, nofun, hs.selector, hs.property, hs.word, hs.done,
      hs.headless⟩

theorem reads_property_at :
    Reads o tail (.bare .property returns frames) "@"
      { mode := .atRule, returns, frames, origin := .declarations } := by
  refine Reads.of_token (c := '@') (by decide) (by decide) nofun fun s k hs hrest htoken hcomment => ?_
  refine ⟨{ s with origin := .declarations, mode := .atRule }, ?_, ?_⟩
  · have hempty : s.property.isEmpty = true := by
      rw [hs.property]
      rfl
    rw [step_property hs.mode]
    simp [inProperty, htoken, hcomment, hempty]
  · exact ⟨rfl, hs.returns, hs.builds, fun _ => rfl, hs.selector, hs.property, hs.word, hs.done, hs.headless⟩

theorem reads_property_close (hback : back = .selector ∨ back = .property) :
    Reads o tail (.bare .property (back :: returns) (f :: g :: fs)) "\x7d"
      (.bare back returns (f.close g :: fs)) := by
  refine Reads.of_token (c := '}') (by decide) (by decide) nofun fun s k hs hrest htoken hcomment => ?_
  refine ⟨{ (s.closeBlock o).popMode .selector with selector := "", property := "" }, ?_, ?_⟩
  · rw [step_property hs.mode]
    simp [inProperty, htoken, hcomment]
  · exact shows_closeBlock hs rfl rfl rfl hback rfl

/-! ## Values and the words of at-rules -/

variable {mode : Mode} {origin : Keyword.AtBody}

/-- Words are read alike in a value and in an at-rule. -/
theorem step_words (hmode : s.mode = .value ∨ s.mode = .atRule) {k : Text.Cursor} (htoken : k.atToken = false)
    (hrest : k.rest.drop 1 ≠ []) (hc : c ≠ '\n') : s.step o k c = s.inWords k c := by
  rcases hmode with hmode | hmode
  · have hempty : (k.rest.drop 1).isEmpty = false := by simpa using hrest
    rw [step_value hmode, inValue]
    simp only [hempty, beq_eq_false_iff_ne.mpr hc, htoken, Bool.false_and, Bool.false_eq_true, if_false, Bool.not_false,
      if_true]
  · rw [step_atRule hmode, inAtRule]
    simp only [htoken, Bool.not_false, if_true]

theorem reads_part_word (hmode : mode = .value ∨ mode = .atRule) (hword : IsWord word)
    (hend : ∃ d ∈ tail, isOrdinary d = false) :
    Reads o tail { mode, returns, frames, origin, property, parts } word
      { mode, returns, frames, origin, property, parts := { parts with word := parts.word ++ word } } := by
  rcases hmode with rfl | rfl <;> exact reads_word (by simp) hword hend

/-- Finishing a word. -/
theorem flushPart_shows (hs : Shows s v) : s.flushPart = { s with part := "", parts := v.parts.all } := by
  unfold flushPart Value.Parts.all
  rw [hs.word, hs.done]

theorem reads_part_blank (hmode : mode = .value ∨ mode = .atRule) (htail : tail ≠ []) :
    Reads o tail { mode, returns, frames, origin, property, parts } " "
      { mode, returns, frames, origin, property, parts := { done := parts.all } } := by
  refine .of_blank (.inl rfl) fun s k hs hrest htoken hspace => ⟨{ s with part := "", parts := parts.all }, ?_, ?_⟩
  · have hmode' : s.mode = .value ∨ s.mode = .atRule := by rwa [hs.mode]
    have hdrop : k.rest.drop 1 ≠ [] := by
      rw [hrest]
      exact htail
    rw [step_words hmode' htoken hdrop (by decide), inWords, if_pos hspace, flushPart_shows hs]
  · exact ⟨hs.mode, hs.returns, hs.builds, hs.origin, hs.selector, hs.property, rfl, rfl, hs.headless⟩

/-- A comma or an exclamation mark in a value is a part of its own. -/
theorem reads_value_mark (hc : c = ',' ∨ c = '!') (htail : tail ≠ []) :
    Reads o tail { mode := .value, returns, frames, origin, property, parts } (ofList [c])
      { mode := .value, returns, frames, origin, property, parts := { done := parts.all ++ [ofList [c]] } } := by
  have hplain : isTokenChar c = true ∧ c ≠ '\\' ∧ c ≠ '/' := by rcases hc with rfl | rfl <;> decide
  refine .of_token hplain.1 hplain.2 nofun fun s k hs hrest htoken hcomment => ?_
  refine ⟨{ s with part := "", parts := parts.all ++ [ofList [c]] }, ?_, ?_⟩
  · rw [step_value hs.mode, inValue, flushPart_shows hs]
    rcases hc with rfl | rfl <;> simp [hrest, htail, htoken, hcomment]
  · exact ⟨hs.mode, hs.returns, hs.builds, nofun, hs.selector, hs.property, rfl, rfl, hs.headless⟩

/-- A text of words, blanks and commas is read as its parts. -/
theorem reads_parts {text : List Char}
    (htext : ∀ c ∈ text, (isOrdinary c = true ∧ c ≠ '\r') ∨ c = ' ' ∨ c = ',') (hstop : Stops tail)
    (hmode : mode = .value ∨ mode = .atRule ∧ ',' ∉ text) :
    Reads o tail { mode, returns, frames, origin, property, parts } (ofList text)
      { mode, returns, frames, origin, property, parts := parts.scan text } := by
  have hwords : mode = .value ∨ mode = .atRule := hmode.imp_right And.left
  induction text generalizing parts with
  | nil => exact Reads.nil
  | cons c rest ih =>
    obtain ⟨hc, hrest⟩ := List.forall_mem_cons.mp htext
    have hmore (parts : Value.Parts) : Reads o tail { mode, returns, frames, origin, property, parts } (ofList rest)
        { mode, returns, frames, origin, property, parts := parts.scan rest } :=
      ih hrest (hmode.imp_right fun h => ⟨h.1, fun hmem => h.2 (List.mem_cons_of_mem _ hmem)⟩)
    have hsingle : ofList (c :: rest) = ofList [c] ++ ofList rest := by
      rw [← String.ofList_append, List.singleton_append]
    have htail : (ofList rest).toList ++ tail ≠ [] := List.append_ne_nil_of_right_ne_nil _ hstop.ne_nil
    rw [hsingle]
    rcases hc with ⟨hordinary, hreturn⟩ | rfl | rfl
    · have hword : IsWord (ofList [c]) := ⟨by simp, by simpa using hordinary, by simpa using hreturn.symm⟩
      have hnext : parts.next c = { parts with word := parts.word ++ ofList [c] } := by
        rw [Value.Parts.next, if_neg (ne_of_isOrdinary hordinary (by decide)),
          if_neg (ne_of_isOrdinary hordinary (by decide)), String.push_eq_append]
        rfl
      have hscan := hmore (parts.next c)
      rw [hnext] at hscan
      have hread := (reads_part_word hwords hword (hstop.exists_mem_append _)).append hscan
      rwa [← hnext] at hread
    · exact (reads_part_blank hwords htail).append (hmore _)
    · have hvalue : mode = .value := hmode.resolve_right fun h => h.2 List.mem_cons_self
      subst hvalue
      exact (reads_value_mark (.inl rfl) htail).append (hmore _)

/-! ## The end of a declaration -/

/-- The end of a declaration reads it into the innermost block. -/
theorem shows_endDeclaration (hs : Shows s v) (hframes : v.frames = f :: g :: fs)
    (hmode : v.mode ≠ .atRule) :
    Shows (s.endDeclaration o)
      { mode := v.mode, returns := v.returns
        frames := f.declare? (declared o v.property v.parts.all) :: g :: fs, selector := v.selector } := by
  have hbuilds := hs.builds
  rw [hframes] at hbuilds
  have hopen : s.openBlocks ≠ [] := by
    intro hnil
    have hlength := Document.Builds.length_eq hbuilds
    simp [hnil] at hlength
  have hparts : s.flushPart.parts = v.parts.all := by rw [flushPart_shows hs]
  have hdeclared := endDeclaration_builds (o := o) hbuilds hopen
  have hheadless := hs.headless.of_header (header_endDeclaration (o := o) s)
  rw [hparts, hs.property] at hdeclared
  obtain ⟨document, new, -, heq⟩ := endDeclaration_eq o hopen
  generalize s.endDeclaration o = t at heq hdeclared hheadless ⊢
  subst heq
  exact ⟨hs.mode, hs.returns, hdeclared, fun h => absurd h hmode, hs.selector, rfl, rfl, rfl, hheadless⟩

/-- A semicolon ends a declaration. -/
theorem reads_value_semicolon (htail : tail ≠ []) :
    Reads o tail { mode := .value, returns := .property :: returns, frames := f :: g :: fs, property, parts } ";"
      (.bare .property returns (f.declare? (declared o property parts.all) :: g :: fs)) := by
  refine Reads.of_token (c := ';') (by decide) (by decide) nofun fun s k hs hrest htoken hcomment => ?_
  refine ⟨(s.popMode .property).endDeclaration o, ?_, ?_⟩
  · rw [step_value hs.mode]
    simp [inValue, hrest, htail, htoken, hcomment]
  · have hpopped : Shows (s.popMode .property)
        { mode := .property, returns, frames := f :: g :: fs, property, parts } := by
      rw [popMode_eq, hs.returns]
      exact ⟨rfl, rfl, hs.builds.congr rfl rfl, nofun, hs.selector, hs.property, hs.word, hs.done, hs.headless⟩
    exact shows_endDeclaration (o := o) hpopped rfl nofun

/-- Closing a block has nothing to do with the stack. -/
theorem closeBlock_withReturns (s : State) (returns : List Mode) :
    { s with returns }.closeBlock o = { s.closeBlock o with returns } := by
  cases hopen : s.openBlocks with
  | nil => simp only [closeBlock, hopen]
  | cons id path => simp only [closeBlock, hopen, pushToken_eq]

/-- A brace ends the last declaration of a block together with the block. -/
theorem reads_value_close (hback : back = .selector ∨ back = .property) (htail : tail ≠ []) :
    Reads o tail
      { mode := .value, returns := .property :: back :: returns, frames := f :: g :: fs, property, parts } "\x7d"
      (.bare back returns ((f.declare? (declared o property parts.all)).close g :: fs)) := by
  refine Reads.of_token (c := '}') (by decide) (by decide) nofun fun s k hs hrest htoken hcomment => ?_
  have hended := shows_endDeclaration (o := o) hs rfl nofun
  have hstep : s.inValue o k '}' = ({ { (s.endDeclaration o).closeBlock o with
      returns := ((s.endDeclaration o).closeBlock o).returns.drop 1 }.popMode .selector with selector := "" }, 0) := by
    simp [inValue, hrest, htail, htoken, hcomment]
  generalize s.endDeclaration o = t at hended hstep
  have hreturns : (t.closeBlock o).returns = .property :: back :: returns := by
    obtain ⟨document, heq⟩ := closeBlock_eq o t
    rw [heq]
    exact hended.returns
  -- the stack has lost what the declaration returns to before the block is closed
  have hdropped : Shows { t with returns := back :: returns }
      (.bare .value (back :: returns) (f.declare? (declared o property parts.all) :: g :: fs)) :=
    ⟨hended.mode, rfl, hended.builds.congr rfl rfl, nofun, hended.selector, hended.property, hended.word,
      hended.done, hended.headless⟩
  have hproperty : (({ t with returns := back :: returns }.closeBlock o).popMode .selector).property = "" := by
    obtain ⟨document, heq⟩ := closeBlock_eq o t
    rw [closeBlock_withReturns, popMode_eq, heq]
    exact hended.property
  have hclosed := shows_closeBlock (o := o) hdropped rfl rfl rfl hback hproperty
  rw [closeBlock_withReturns] at hclosed
  rw [step_value hs.mode, hstep, hreturns]
  exact ⟨_, rfl, hclosed⟩

/-! ## The end of an at-rule -/

/-- An at-sign starts an at-rule, whatever stands around it. -/
theorem reads_at (body : Keyword.AtBody) :
    Reads o tail (.bare (bodyMode body) returns frames) "@" { mode := .atRule, returns, frames, origin := body } := by
  cases body
  · exact reads_property_at
  · exact reads_selector_at

/-- A brace opens the block of an at-rule whose keyword is known. -/
theorem reads_atRule_open {inner : Keyword.AtBody} (hkeyword : parts.all.head?.bind Keyword.atBody? = some inner) :
    Reads o tail { mode := .atRule, returns, frames := f :: fs, origin, parts } "\x7b"
      (.bare (bodyMode inner) (bodyMode origin :: returns) ({ name := "@" ++ Value.joinParts parts.all, kind := .atBlock } :: f :: fs)) := by
  refine Reads.of_token (c := '{') (by decide) (by decide) (fun _ => by decide) fun s k hs hrest htoken hcomment => ?_
  refine ⟨s.openAtBlock o (k.rest.drop 1), ?_, ?_⟩
  · rw [step_atRule hs.mode]
    simp [inAtRule, htoken, hcomment]
  · have hparts : s.flushPart.parts = parts.all := by rw [flushPart_shows hs]
    have hbody : bodyOf s.flushPart.parts (k.rest.drop 1) = inner := by
      rw [bodyOf, hparts, hkeyword]
    have hbuilds := openAtBlock_builds (o := o) hs.builds (k.rest.drop 1)
    have hheadless := hs.headless.of_header (header_openAtBlock (o := o) s (k.rest.drop 1))
    rw [hparts] at hbuilds
    obtain ⟨document, heq⟩ := openAtBlock_eq o s (k.rest.drop 1)
    rw [hbody, hs.origin rfl] at heq
    generalize s.openAtBlock o (k.rest.drop 1) = t at heq hbuilds hheadless ⊢
    subst heq
    refine ⟨rfl, congrArg (bodyMode origin :: ·) hs.returns, hbuilds, ?_, hs.selector, hs.property, rfl, rfl, hheadless⟩
    rcases bodyMode_cases inner with h | h <;> rw [h] <;> exact nofun

/-- The names of the at-rules about the document as a whole. -/
def headerRules : List String := ["charset", "namespace", "import"]

theorem addAtRule_eq_addLineAt (hparts : s.parts = name :: rest)
    (hname : lower name ∉ headerRules) : s.addAtRule o = s.addLineAt o ⟨name, Value.joinParts rest⟩ := by
  simp only [headerRules, List.mem_cons, List.not_mem_nil, or_false, not_or] at hname
  unfold addAtRule
  rw [hparts]
  simp only
  split
  · next h => exact absurd h hname.1
  · next h => exact absurd h hname.2.1
  · next h => exact absurd h hname.2.2
  · rfl

/-- The end of an at-rule that is not about the document as a whole puts it into the innermost block. -/
theorem endAtRule_builds (hs : Shows s v) (hframes : v.frames = f :: fs) (hparts : v.parts.all = name :: rest)
    (hname : lower name ∉ headerRules) :
    (s.endAtRule o).Builds (f.push (.lineAt ⟨name, Value.joinParts rest⟩) :: fs) ∧ (s.endAtRule o).document.Headless := by
  have hflushed : s.flushPart.parts = name :: rest := by rw [flushPart_shows hs, ← hparts]
  have hbuilds : s.flushPart.Builds (f :: fs) := by
    rw [flushPart_shows hs, ← hframes]
    exact hs.builds.congr rfl rfl
  have hheadless : s.flushPart.document.Headless := by
    rw [flushPart_shows hs]
    exact hs.headless
  unfold endAtRule
  generalize s.flushPart = t at hflushed hbuilds hheadless ⊢
  have hadded := addLineAt_builds (o := o) hbuilds ⟨name, Value.joinParts rest⟩
  have hheader := hheadless.of_header (header_addLineAt (o := o) t ⟨name, Value.joinParts rest⟩)
  rw [addAtRule_eq_addLineAt hflushed hname]
  exact ⟨hadded.congr rfl rfl, hheader⟩

/-- A semicolon ends an at-rule without a body. -/
theorem reads_atRule_semicolon (hparts : parts.all = name :: rest) (hname : lower name ∉ headerRules) :
    Reads o tail { mode := .atRule, returns, frames := f :: fs, origin, parts } ";"
      (.bare (bodyMode origin) returns (f.push (.lineAt ⟨name, Value.joinParts rest⟩) :: fs)) := by
  refine Reads.of_token (c := ';') (by decide) (by decide) (fun _ => by decide) fun s k hs hrest htoken hcomment => ?_
  refine ⟨s.endAtRule o, ?_, ?_⟩
  · rw [step_atRule hs.mode]
    simp [inAtRule, htoken, hcomment]
  · obtain ⟨hbuilds, hheadless⟩ := endAtRule_builds (o := o) hs rfl hparts hname
    have hmode : bodyMode s.origin = bodyMode origin := by rw [hs.origin rfl]
    obtain ⟨document, new, -, heq⟩ := endAtRule_eq o s
    generalize s.endAtRule o = t at heq hbuilds hheadless ⊢
    subst heq
    refine ⟨hmode, hs.returns, hbuilds, ?_, hs.selector, hs.property, rfl, rfl, hheadless⟩
    rcases bodyMode_cases origin with h | h <;> rw [h] <;> exact nofun

end Pieces

end Reader

end Stylesheet
