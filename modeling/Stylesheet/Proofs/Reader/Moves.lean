import Stylesheet.Reader.Step

/-!
# What the moves of the reader change

The moves of the reader that test something are given here as changes of single fields. What a move puts into the
document or the log is left open; that it leaves every other field alone is what matters. So the effect of a step
on the stack and the buffers can be read off without looking into the document.

Of the log one thing is kept: nothing is said about a declaration outside of a block (`Unstrayed`), as long as
some block is open where a declaration ends.
-/

namespace Stylesheet

open List

namespace Reader

/-! ## Messages -/

/-- No message says that a declaration stands outside of a block. -/
def Unstrayed (log : List Message) : Prop :=
  ∀ m ∈ log, Text.startsWith m.text "Dropped declaration outside of a block" = false

/-- Two texts that begin with different characters. -/
theorem startsWith_eq_false {s t : String} {c : Char} (ht : t.toList.head? = some c) (hs : s.toList.head? ≠ some c) :
    Text.startsWith s t = false := by
  obtain ⟨t', ht⟩ := head?_eq_some_iff.mp ht
  cases hchars : s.toList with
  | nil => simp [Text.startsWith, hchars, ht]
  | cons a s' =>
    have hne : c ≠ a := fun h => hs (by rw [hchars, h]; rfl)
    simp [Text.startsWith, hchars, ht, isPrefixOf, hne]

theorem head?_append_of {s t : String} {c : Char} (h : s.toList.head? = some c) : (s ++ t).toList.head? = some c := by
  rw [String.toList_append, head?_append, h]
  rfl

namespace Unstrayed

theorem nil : Unstrayed [] := fun _ h => absurd h (not_mem_nil)

theorem append {log new : List Message} (h : Unstrayed log) (hnew : Unstrayed new) : Unstrayed (log ++ new) := by
  intro m hm
  rcases mem_append.mp hm with hm | hm
  · exact h m hm
  · exact hnew m hm

/-- A message whose text begins with another letter. -/
theorem singleton {component : Component} {severity : Severity} {line : Nat} {text : String} {c : Char}
    (h : text.toList.head? = some c) (hc : 'D' ≠ c) : Unstrayed [⟨component, severity, line, text⟩] := by
  intro m' hm'
  rw [mem_singleton.mp hm']
  refine startsWith_eq_false (c := 'D') (by decide) ?_
  rw [h]
  exact fun heq => hc (Option.some.inj heq).symm

end Unstrayed

end Reader

/-! ## Messages about values -/

namespace Value

/-- The messages are about a value that starts on the given line, and none of them begins as those about stray
declarations do. -/
def About (line : Nat) (messages : List Message) : Prop :=
  ∀ m ∈ messages, m.component ≠ .parser ∧ m.line = line ∧ m.text.toList.head? ≠ some 'D'

namespace About

variable {line : Nat}

theorem nil : About line [] := fun _ h => absurd h not_mem_nil

theorem append {messages more : List Message} (h : About line messages) (hmore : About line more) :
    About line (messages ++ more) := by
  intro m hm
  rcases mem_append.mp hm with hm | hm
  · exact h m hm
  · exact hmore m hm

theorem singleton {component : Component} {severity : Severity} {text : String} {c : Char} (h : component ≠ .parser)
    (hc : c ≠ 'D') (hhead : text.toList.head? = some c) : About line [⟨component, severity, line, text⟩] := by
  intro m hm
  rw [mem_singleton.mp hm]
  exact ⟨h, rfl, by simpa [hhead] using hc⟩

theorem unstrayed {messages : List Message} (h : About line messages) : Reader.Unstrayed messages :=
  fun m hm => Reader.startsWith_eq_false (by decide) (h m hm).2.2

end About

open Reader (head?_append_of)

theorem mendColor_about (property part : String) (line : Nat) : About line (mendColor property part line).2 := by
  unfold mendColor
  split
  · exact .nil
  · split
    · refine .singleton (c := 'F') (by decide) (by decide) ?_
      iterate 2 refine head?_append_of ?_
      decide
    · refine .singleton (c := 'I') (by decide) (by decide) ?_
      iterate 4 refine head?_append_of ?_
      decide

theorem analyse_about {convert : Bool} {text : String} {line : Nat} {found : Measure × List Message}
    (h : analyse convert text line = some found) : About line found.2 := by
  unfold analyse at h
  split at h
  · cases h
    exact .nil
  · split at h
    · cases h
    · split at h
      · cases h
      · cases h
        refine iteInduction (fun _ => ?_) (fun _ => iteInduction (fun _ => ?_) (fun _ => .nil))
        all_goals
          refine .singleton (c := 'O') (by decide) (by decide) ?_
          iterate 5 refine head?_append_of ?_
          decide

theorem settleUnit_about (property text number unit : String) (line : Nat) :
    About line (settleUnit property text number unit line).2 := by
  unfold settleUnit
  split
  · split
    · refine .singleton (c := 'F') (by decide) (by decide) ?_
      iterate 2 refine head?_append_of ?_
      decide
    · exact .nil
  · split
    · refine .singleton (c := 'O') (by decide) (by decide) ?_
      iterate 4 refine head?_append_of ?_
      decide
    · exact .nil

theorem shortenAll_about (convert : Bool) (property : String) (line : Nat) (texts : List String) :
    About line (shortenAll convert property line texts).2 := by
  induction texts with
  | nil => exact .nil
  | cons text rest ih =>
    unfold shortenAll
    split
    · exact .nil
    · next h => exact ((analyse_about h).append (settleUnit_about _ _ _ _ _)).append ih

end Value

namespace Reader

theorem tidyPart_about (o : Options) (property : String) (line : Nat) (part : String) :
    Value.About line (State.tidyPart o property line part).2 := by
  unfold State.tidyPart
  split
  · exact .nil
  · simp only
    split
    · exact .nil
    · exact (Value.mendColor_about _ _ _).append (Value.shortenAll_about _ _ _ _)

/-- The messages about the parts of a value. -/
theorem tidied_about (o : Options) (property : String) (line : Nat) (parts : List String) :
    Value.About line ((parts.map (State.tidyPart o property line)).flatMap (·.2)) := by
  intro m hm
  obtain ⟨x, hx, hm⟩ := mem_flatMap.mp hm
  obtain ⟨part, -, rfl⟩ := mem_map.mp hx
  exact tidyPart_about o property line part m hm

/-- What is said about an escape. -/
theorem escapeText_unstrayed (line : Nat) (change : Text.EscapeChange) :
    Unstrayed [.info .parser line (State.escapeText change)] := by
  have hhead : (State.escapeText change).toList.head? = some 'R' := by
    unfold State.escapeText
    cases change with
    | replaced digits c =>
      iterate 3 refine head?_append_of ?_
      decide
    | dropped => decide
  exact .singleton hhead (by decide)

/-! ## Moves -/

theorem bodyMode_cases (body : Keyword.AtBody) : bodyMode body = .selector ∨ bodyMode body = .property := by
  cases body
  · exact .inr rfl
  · exact .inl rfl

namespace State

theorem popMode_eq (s : State) (otherwise : Mode) :
    s.popMode otherwise
      = { s with mode := s.returns.head?.getD otherwise, returns := s.returns.tail } := by
  unfold popMode
  split <;> next h => simp [h]

theorem pushToken_eq (o : Options) (s : State) (kind : TokenKind) (data : String) :
    s.pushToken o kind data
      = { s with document :=
          { s.document with
            tokens := s.document.tokens ++ if o.preserveCss then [⟨kind, data⟩] else [] } } := by
  unfold pushToken
  split <;> simp

/-- Finishing a part. -/
theorem flushPart_eq (s : State) : ∃ parts, s.flushPart = { s with part := "", parts } :=
  ⟨_, rfl⟩

/-- A part with nothing but space in it is no part. -/
theorem parts_flushPart_of_empty {s : State} (h : Text.trim s.part = "") : s.flushPart.parts = s.parts := by
  simp [flushPart, h]

theorem parts_flushPart_of_ne {s : State} (h : Text.trim s.part ≠ "") :
    s.flushPart.parts = s.parts ++ [Text.trim s.part] := by
  simp [flushPart, h]

/-- Space in a selector changes the selector only. -/
theorem spaceSelector_eq (s : State) : ∃ selector, s.spaceSelector = { s with selector } := by
  unfold spaceSelector
  split
  · exact ⟨s.selector, rfl⟩
  · split
    · exact ⟨s.selector, rfl⟩
    · exact ⟨_, rfl⟩

/-- An argument changes the part that is being read. -/
theorem pushArgument_eq (s : State) (c : Char) : ∃ part, s.pushArgument c = { s with part } := by
  unfold pushArgument
  simp only
  split
  · exact ⟨s.part, rfl⟩
  · split <;> exact ⟨_, rfl⟩

/-- An escape counts lines and may say something. -/
theorem readEscape_eq {o : Options} {k : Text.Cursor} {s t : State} {text : String} {n : Nat}
    (h : s.readEscape o k = (text, t, n)) :
    ∃ line new, Unstrayed new ∧ t = { s with line, log := s.log ++ new } := by
  have ht : t = (s.readEscape o k).2.1 := by rw [h]
  unfold readEscape at ht
  simp only at ht
  generalize Text.Escape.read o.removeBackslash (k.rest.drop 1) = e at ht
  obtain ⟨_, length, change⟩ := e
  generalize s.line + ((k.rest.drop 1).take length).count '\n' = line at ht
  cases change with
  | some change =>
    exact ⟨line, [.info .parser line (escapeText change)], escapeText_unstrayed line change, ht⟩
  | none => exact ⟨line, [], .nil, by rw [append_nil]; exact ht⟩

/-- A comment counts lines and goes into the document. -/
theorem readComment_eq (o : Options) (s : State) (k : Text.Cursor) :
    ∃ line document, (s.readComment o k).1 = { s with line, document } := by
  unfold readComment addComment
  simp only
  split <;> rw [pushToken_eq] <;> exact ⟨_, _, rfl⟩

/-- The end of a string goes back to what it interrupts and puts the string there. -/
theorem closeString_eq (o : Options) (s : State) :
    ∃ selector part, s.closeString o
        = { s with
            string := "", keepQuotes := false, mode := s.returns.head?.getD .value
            returns := s.returns.tail, selector, part } ∧
      (if s.returns.head?.getD .value = .selector then part = s.part else selector = s.selector) := by
  unfold closeString
  rw [popMode_eq]
  simp only
  split
  · exact ⟨_, s.part, rfl, rfl⟩
  · exact ⟨s.selector, _, rfl, rfl⟩

/-- Closing a block changes the stream at most. -/
theorem closeBlock_eq (o : Options) (s : State) :
    ∃ document, s.closeBlock o = { s with openBlocks := s.openBlocks.tail, document } := by
  unfold closeBlock
  split
  · next h =>
    refine ⟨s.document, ?_⟩
    cases s
    simp_all
  · next h =>
    simp only
    rw [pushToken_eq, h]
    exact ⟨_, rfl⟩

/-- Opening the block of a selector. -/
theorem openSelector_eq (o : Options) (s : State) :
    ∃ id document, s.openSelector o
      = { s with
          selector := "", mode := .property, returns := .selector :: s.returns
          openBlocks := id :: s.openBlocks, document } := by
  unfold openSelector
  simp only
  rw [pushToken_eq]
  split
  · exact ⟨_, _, rfl⟩
  · exact ⟨_, _, rfl⟩

/-- Opening the block of an at-rule. -/
theorem openAtBlock_eq (o : Options) (s : State) (body : List Char) :
    ∃ document, s.openAtBlock o body
      = { s with
          part := "", parts := [], mode := bodyMode (bodyOf s.flushPart.parts body)
          returns := bodyMode s.origin :: s.returns
          openBlocks := s.document.fresh :: s.openBlocks, document } := by
  obtain ⟨parts, hflush⟩ := flushPart_eq s
  unfold openAtBlock
  rw [hflush]
  simp only
  rw [pushToken_eq]
  exact ⟨_, rfl⟩

/-! ## Declarations and at-rules -/

theorem addDeclaration_eq (o : Options) (s : State) (property : String) (value : Value) :
    ∃ document, s.addDeclaration o property value = { s with document } := by
  unfold addDeclaration
  rw [pushToken_eq, pushToken_eq]
  exact ⟨_, rfl⟩

/-- The declaration that the words read so far make up, if there is one to be put into the current block. -/
def declaration? (o : Options) (s : State) : Option Declaration :=
  let property := Text.lower (Text.trim s.property)
  let (parts, important) := cutImportant s.flushPart.parts
  let text := Value.joinParts (parts.map fun part => (tidyPart o property s.valueLine part).1)
  if property.isEmpty || s.openBlocks.isEmpty || text.isEmpty then none
  else if o.preserveCss || Property.isValid property o.cssLevel || !o.discardInvalidProperties then
    some (property, ⟨text, important⟩)
  else none

/-- What a declaration that is made is made of. -/
structure Makes (o : Options) (s : State) (d : Declaration) : Prop where
  property : d.1 = Text.lower (Text.trim s.property)
  property_ne : d.1 ≠ ""
  openBlocks : s.openBlocks ≠ []
  value : d.2 = ⟨Value.joinParts ((cutImportant s.flushPart.parts).1.map fun part =>
    (tidyPart o (Text.lower (Text.trim s.property)) s.valueLine part).1), (cutImportant s.flushPart.parts).2⟩
  text_ne : d.2.text ≠ ""

theorem Makes.text {o : Options} {s : State} {d : Declaration} (h : s.Makes o d) :
    d.2.text = Value.joinParts ((cutImportant s.flushPart.parts).1.map fun part =>
      (tidyPart o (Text.lower (Text.trim s.property)) s.valueLine part).1) := by
  rw [h.value]

theorem of_declaration? {o : Options} {s : State} {d : Declaration} (h : s.declaration? o = some d) : s.Makes o d := by
  unfold declaration? at h
  simp only at h
  split at h
  · cases h
  · next hcond =>
    simp only [Bool.or_eq_true, not_or, String.isEmpty_iff, List.isEmpty_iff] at hcond
    split at h
    · rw [← Option.some.inj h]
      refine ⟨rfl, ?_, hcond.1.2, rfl, ?_⟩ <;> dsimp only
      · exact hcond.1.1
      · exact hcond.2
    · cases h

/-- The declaration depends on the buffers of a declaration only, and on whether a block is open. -/
theorem declaration?_congr {o : Options} {s t : State} (hproperty : t.property = s.property)
    (hpart : t.part = s.part) (hparts : t.parts = s.parts) (hline : t.valueLine = s.valueLine)
    (hopen : t.openBlocks = s.openBlocks) : t.declaration? o = s.declaration? o := by
  unfold declaration? flushPart
  rw [hproperty, hpart, hparts, hline, hopen]

/-- What is said at the end of a declaration. -/
def said (o : Options) (s : State) : List Message :=
  let property := Text.lower (Text.trim s.property)
  let tidied := (cutImportant s.flushPart.parts).1.map (tidyPart o property s.valueLine)
  if property.isEmpty then []
  else if s.openBlocks.isEmpty then [.warn .parser s.line s!"Dropped declaration outside of a block: {property}"]
  else
    tidied.flatMap (·.2) ++
      if (Value.joinParts (tidied.map (·.1))).isEmpty then
        [.info .parser s.line s!"Removed empty declaration: {property}"]
      else if o.preserveCss || Property.isValid property o.cssLevel then []
      else if o.discardInvalidProperties then [.warn .parser s.line s!"Removed invalid property: {property}"]
      else
        let level := o.cssLevel.name
        [.warn .parser s.line s!"Invalid property in {level}: {property}"]

/-- The state behind a declaration that is not put into a block. -/
def cleared (o : Options) (s : State) : State :=
  { s with part := "", parts := [], property := "", log := s.log ++ s.said o }

/-- **The end of a declaration** empties its buffers and puts the declaration into the current block, if there is one. -/
theorem endDeclaration_eq_elim (o : Options) (s : State) :
    s.endDeclaration o = (s.declaration? o).elim (s.cleared o) fun d => (s.cleared o).addDeclaration o d.1 d.2 := by
  obtain ⟨parts, hflush⟩ := flushPart_eq s
  unfold endDeclaration declaration? cleared said
  rw [hflush]
  simp only [map_map]
  have hcomp (property : String) : (fun part => (tidyPart o property s.valueLine part).1)
      = (fun d => d.1) ∘ tidyPart o property s.valueLine := rfl
  rw [hcomp]
  generalize Text.lower (Text.trim s.property) = property
  generalize (cutImportant parts).1 = words
  generalize (cutImportant parts).2 = important
  generalize Value.joinParts (words.map ((fun d => d.1) ∘ tidyPart o property s.valueLine)) = text
  by_cases hproperty : property.isEmpty = true
  · simp [hproperty]
  by_cases hopen : s.openBlocks.isEmpty = true
  · simp [hproperty, hopen, warn, say]
  by_cases htext : text.isEmpty = true
  · simp [hproperty, hopen, htext, info, say]
  by_cases hvalid : (o.preserveCss || Property.isValid property o.cssLevel) = true
  · simp [hproperty, hopen, htext, hvalid, checkDeclaration, say]
  · cases hdiscard : o.discardInvalidProperties <;>
      simp [hproperty, hopen, htext, hvalid, hdiscard, checkDeclaration, warn, say]

/-- The end of a declaration empties the buffers of the declaration, whether or not a block is open. -/
theorem exists_endDeclaration_eq (o : Options) (s : State) :
    ∃ document, s.endDeclaration o = { s.cleared o with document } := by
  rw [endDeclaration_eq_elim]
  cases s.declaration? o with
  | none => exact ⟨s.document, rfl⟩
  | some d => exact addDeclaration_eq o (s.cleared o) d.1 d.2

/-- Inside of a block nothing is said about stray declarations. -/
theorem said_unstrayed (o : Options) {s : State} (hopen : s.openBlocks ≠ []) : Unstrayed (s.said o) := by
  have hempty : ¬ s.openBlocks.isEmpty := by simpa using hopen
  unfold said
  simp only [if_neg hempty]
  split
  · exact .nil
  refine (tidied_about o _ s.valueLine _).unstrayed.append ?_
  split
  · exact .singleton (c := 'R') (head?_append_of (by decide)) (by decide)
  split
  · exact .nil
  split
  · exact .singleton (c := 'R') (head?_append_of (by decide)) (by decide)
  · refine .singleton (c := 'I') ?_ (by decide)
    iterate 3 refine head?_append_of ?_
    decide

/-- The end of a declaration inside of a block empties the buffers of the declaration. -/
theorem endDeclaration_eq (o : Options) {s : State} (hopen : s.openBlocks ≠ []) :
    ∃ document new, Unstrayed new ∧
      s.endDeclaration o
        = { s with part := "", parts := [], property := "", document, log := s.log ++ new } := by
  obtain ⟨document, heq⟩ := exists_endDeclaration_eq o s
  exact ⟨document, _, said_unstrayed o hopen, heq⟩

/-- The rules about the document as a whole change the document and may say something. -/
theorem addAtRule_eq (o : Options) (s : State) :
    ∃ document new, Unstrayed new ∧ s.addAtRule o = { s with document, log := s.log ++ new } := by
  unfold addAtRule
  split
  · exact ⟨s.document, [], .nil, by rw [append_nil]⟩
  · next name rest _ =>
    split
    · unfold addCharset
      split
      · exact ⟨s.document, _, .singleton (c := 'O') (by decide) (by decide), rfl⟩
      · simp only
        split
        · exact ⟨_, _, .singleton (c := '@') (by decide) (by decide), rfl⟩
        · exact ⟨_, [], .nil, by rw [append_nil]⟩
    · unfold addNamespace
      simp only
      split
      · exact ⟨_, _, .singleton (c := '@') (by decide) (by decide), rfl⟩
      · exact ⟨_, [], .nil, by rw [append_nil]⟩
    · unfold addImport
      simp only
      split
      · exact ⟨_, _, .singleton (c := '@') (by decide) (by decide), rfl⟩
      · split
        · exact ⟨_, _, .singleton (c := '@') (by decide) (by decide), rfl⟩
        · exact ⟨_, [], .nil, by rw [append_nil]⟩
    · unfold addLineAt
      simp only
      rw [pushToken_eq]
      exact ⟨_, [], .nil, by rw [append_nil]⟩

/-- The end of an at-rule empties the buffers of the at-rule. -/
theorem endAtRule_eq (o : Options) (s : State) :
    ∃ document new, Unstrayed new ∧
      s.endAtRule o
        = { s with
            part := "", parts := [], mode := bodyMode s.origin, document, log := s.log ++ new } := by
  obtain ⟨parts, hflush⟩ := flushPart_eq s
  obtain ⟨document, new, hnew, h⟩ := addAtRule_eq o { s with part := "", parts }
  unfold endAtRule
  rw [hflush, h]
  exact ⟨document, new, hnew, rfl⟩

/-! ## Text -/

/-- Puts a text where the mode collects it. -/
def putText (s : State) (text : String) : State :=
  match s.mode with
  | .selector => { s with selector := s.selector ++ text }
  | .property => { s with property := s.property ++ text }
  | _ => { s with part := s.part ++ text }

theorem mode_putText (s : State) (text : String) : (s.putText text).mode = s.mode := by
  unfold putText
  split <;> rfl

theorem putText_empty (s : State) : s.putText "" = s := by
  unfold putText
  split <;> rw [String.append_empty]

theorem putText_putText (s : State) (a b : String) : (s.putText a).putText b = s.putText (a ++ b) := by
  rw [putText, mode_putText]
  unfold putText
  split <;> simp only [String.append_assoc]

end State

end Reader

end Stylesheet
