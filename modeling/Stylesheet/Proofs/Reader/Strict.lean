import Stylesheet.Proofs.Document.Change
import Stylesheet.Proofs.Reader.Growth

/-!
# Lookups of the reader

The reader looks up blocks in three places: when it closes a block, when it looks for a block that a selector goes on
with, and when it puts a declaration into a block. `Strict.read` reads a stylesheet and fails as soon as one of them asks
for a block that is not there.

It never fails (`strict_read`). The open blocks are a path of the tree, and all blocks that stand in the innermost of
them are there.
-/

namespace Stylesheet

open Reader (State)
open Option

namespace Strict

open Text (Cursor)

/-- Closes the innermost block. -/
def closeBlock (o : Options) (s : State) : Option State :=
  match s.openBlocks with
  | [] => some s
  | id :: openBlocks => do
    let b ← s.document.get? id
    let kind := if b.isSelector then .selectorEnd else .atEnd
    return { s with openBlocks }.pushToken o kind ""

/-- The block that a selector goes on with. -/
def earlierSelector (o : Options) (d : Document) (parent : BlockId) (name : String) : Option (Option BlockId) :=
  if o.preserveCss then some none
  else do
    let named (b : Block) : Bool := b.isSelector && b.name == name
    let children := (← d.get? parent).children
    let previous := (children.reverse.find? (!·.isComment)).bind Child.blockId?
    match ← d.firstBlock? named previous.toList with
    | some id => return some id
    | none => if o.mergeSelectors = .all then d.firstBlock? named (children.filterMap Child.blockId?) else return none

/-- Opens the block of a selector. -/
def openSelector (o : Options) (s : State) : Option State := do
  let _ ← earlierSelector o s.document s.current (s.selectorName o)
  return s.openSelector o

/-- Puts a declaration into the current block. -/
def addDeclaration (o : Options) (s : State) (property : String) (value : Value) : Option State := do
  let _ ← s.document.get? s.current
  return s.addDeclaration o property value

/-- Puts a declaration into the current block, unless its property is unknown and to be discarded. -/
def checkDeclaration (o : Options) (s : State) (property : String) (value : Value) : Option State :=
  if o.preserveCss || Property.isValid property o.cssLevel then addDeclaration o s property value
  else if o.discardInvalidProperties then some (s.checkDeclaration o property value)
  else
    let level := o.cssLevel.name
    addDeclaration o (s.warn s!"Invalid property in {level}: {property}") property value

/-- Ends the declaration that has been read. -/
def endDeclaration (o : Options) (s : State) : Option State :=
  let s := s.flushPart
  let property := Text.lower (Text.trim s.property)
  let (parts, important) := State.cutImportant s.parts
  let s := { s with parts := [], property := "" }
  if property.isEmpty then some s
  else if s.openBlocks.isEmpty then
    some (s.warn s!"Dropped declaration outside of a block: {property}")
  else
    let tidied := parts.map (State.tidyPart o property s.valueLine)
    let s := s.say (tidied.flatMap (·.2))
    let text := Value.joinParts (tidied.map (·.1))
    if text.isEmpty then some (s.info s!"Removed empty declaration: {property}")
    else checkDeclaration o s property ⟨text, important⟩

/-- A step inside a selector. Braces open and close blocks. -/
def inSelector (o : Options) (k : Cursor) (c : Char) (s : State) : Option (State × Nat) :=
  if k.atToken && !State.atComment k && c == '{' then return (← openSelector o s, 0)
  else if k.atToken && !State.atComment k && c == '}' then
    return ({ (← closeBlock o s).popMode .selector with selector := "" }, 0)
  else some (s.inSelector o k c)

/-- A step inside the name of a property. A brace closes a block. -/
def inProperty (o : Options) (k : Cursor) (c : Char) (s : State) : Option (State × Nat) :=
  if k.atToken && !State.atComment k && c == '}' then
    return ({ (← closeBlock o s).popMode .selector with selector := "", property := "" }, 0)
  else some (s.inProperty o k c)

/-- A step inside a value. The end of the text, a line break in front of a property, a semicolon and a brace end the
declaration, and the brace closes a block as well. -/
def inValue (o : Options) (k : Cursor) (c : Char) (s : State) : Option (State × Nat) :=
  if (k.rest.drop 1).isEmpty then return (← endDeclaration o (s.popMode .property), 0)
  else if c == '\n' && State.propertyFollows (k.rest.drop 1) then
    return (← endDeclaration o ((s.warn "Added semicolon to the end of declaration").popMode .property), 0)
  else if k.atToken && !State.atComment k && c == ';' then return (← endDeclaration o (s.popMode .property), 0)
  else if k.atToken && !State.atComment k && c == '}' then do
    let s ← closeBlock o (← endDeclaration o s)
    return ({ { s with returns := s.returns.drop 1 }.popMode .selector with selector := "" }, 0)
  else some (s.inValue o k c)

/-- A step in the current mode. -/
def step (o : Options) (k : Cursor) (c : Char) (s : State) : Option (State × Nat) :=
  match s.mode with
  | .selector => inSelector o k c s
  | .property => inProperty o k c s
  | .value => inValue o k c s
  | _ => some (s.step o k c)

/-- One step. -/
def next (o : Options) (r : Reader) : Option Reader :=
  match r.cursor.rest with
  | [] => some r
  | c :: _ =>
    if r.atSharedBrace then some (r.next o)
    else do
      let (s, taken) ← step o r.cursor c (r.state.countLine c)
      return ⟨r.cursor.advance (taken + 1), s⟩

/-- Reads up to the end of the text, in at most the given number of steps. -/
def run (o : Options) : Nat → Reader → Option Reader
  | 0, r => if r.cursor.rest.isEmpty then some r else none
  | n + 1, r => if r.cursor.rest.isEmpty then some r else (next o r).bind (run o n)

/-- Ends whatever the end of the text has left open. -/
def finish (o : Options) (s : State) : Option State :=
  let s := (s.finishString o).finishBracket
  if s.mode = .value then endDeclaration o s else some (s.finishWords o)

/-- Reads a stylesheet, and fails if a block that is looked up is not there. -/
def read (o : Options) (css : String) : Option (Document × List Message) := do
  let r ← run o (Reader.start css).measure (.start css)
  let s ← finish o r.state
  return (s.document, s.log)

end Strict

namespace Reader

open Document (isLive)

variable {o : Options} {s : State} {frames : List Frame}

/-! ## Blocks that are there -/

section

variable (h : s.Builds frames)
include h

theorem State.Builds.isLive_current : s.document.isLive s.current := by
  obtain ⟨-, hlive⟩ := Document.Builds.isChain h
  refine hlive _ ?_
  unfold State.current
  cases s.openBlocks <;> simp

theorem State.Builds.isLive_childBlocks : ∀ id ∈ s.document.childBlocks s.current, s.document.isLive id := by
  intro id hid
  obtain ⟨f, fs, rfl⟩ := h.exists_cons
  obtain ⟨_, _, _, _, _, _, -, ⟨cs, hget⟩, -⟩ := Document.Builds.exists_reopen h hid
  rw [isLive, hget]
  rfl

/-! ## Lookups do not fail -/

theorem strict_closeBlock : Strict.closeBlock o s = some (s.closeBlock o) := by
  have hlive := h.isLive_current
  rw [Strict.closeBlock, State.closeBlock]
  cases hopen : s.openBlocks with
  | nil => rfl
  | cons id path =>
    rw [State.current, hopen] at hlive
    obtain ⟨b, hb⟩ := isSome_iff_exists.mp hlive
    rw [List.head?_cons, getD_some] at hb
    simp only [hb]
    rfl

theorem strict_earlierSelector (name : String) :
    Strict.earlierSelector o s.document s.current name
      = some (State.earlierSelector? o s.document s.current name) := by
  have hlive := h.isLive_childBlocks
  obtain ⟨b, hb⟩ := isSome_iff_exists.mp h.isLive_current
  have hchildren : s.document.childBlocks s.current = b.childBlocks := by rw [Document.childBlocks, hb]; rfl
  rw [hchildren] at hlive
  unfold Strict.earlierSelector State.earlierSelector?
  by_cases hpreserve : o.preserveCss = true
  · rw [if_pos hpreserve, if_pos hpreserve]
  · rw [if_neg hpreserve, if_neg hpreserve, hchildren]
    have hprevious : ∀ id ∈ ((b.children.reverse.find? (!·.isComment)).bind Child.blockId?).toList, s.document.isLive id := by
      intro id hid
      obtain ⟨child, hchild, hid⟩ := bind_eq_some_iff.mp (mem_toList.mp hid)
      exact hlive id (List.mem_filterMap.mpr ⟨child, List.mem_reverse.mp (List.mem_of_find?_eq_some hchild), hid⟩)
    have hall : s.document.firstBlock? (fun b => b.isSelector && b.name == name) (b.children.filterMap Child.blockId?)
        = some (b.childBlocks.find? (State.isSelectorNamed s.document name)) := Document.firstBlock?_eq hlive
    simp only [hb, bind_eq_bind, bind_some, map_some, getD_some, Document.firstBlock?_eq hprevious, hall]
    cases (b.children.reverse.find? (!·.isComment)).bind Child.blockId? with
    | none => cases o.mergeSelectors <;> rfl
    | some id =>
      have hfilter : (some id).filter (State.isSelectorNamed s.document name)
          = [id].find? fun id => (s.document.get? id).any fun b => b.isSelector && b.name == name := by
        rw [filter_some, List.find?_singleton]
        rfl
      rw [hfilter, toList_some]
      cases [id].find? fun id => (s.document.get? id).any fun b => b.isSelector && b.name == name with
      | none => cases o.mergeSelectors <;> rfl
      | some id => rfl

theorem strict_openSelector : Strict.openSelector o s = some (s.openSelector o) := by
  rw [Strict.openSelector, strict_earlierSelector h]
  rfl

end

theorem strict_addDeclaration (hlive : s.document.isLive s.current) (property : String) (value : Value) :
    Strict.addDeclaration o s property value = some (s.addDeclaration o property value) := by
  obtain ⟨b, hb⟩ := isSome_iff_exists.mp hlive
  rw [Strict.addDeclaration, hb]
  rfl

theorem strict_checkDeclaration (hlive : s.document.isLive s.current) (property : String) (value : Value) :
    Strict.checkDeclaration o s property value = some (s.checkDeclaration o property value) := by
  unfold Strict.checkDeclaration
  split
  · next hvalid =>
    rw [strict_addDeclaration hlive, State.checkDeclaration, if_pos hvalid]
  · next hvalid =>
    split
    · rfl
    · next hdiscard =>
      rw [State.checkDeclaration, if_neg hvalid, if_neg hdiscard]
      refine strict_addDeclaration ?_ property value
      exact hlive

theorem strict_endDeclaration (hlive : s.document.isLive s.current) :
    Strict.endDeclaration o s = some (s.endDeclaration o) := by
  unfold Strict.endDeclaration State.endDeclaration
  simp only
  split
  · rfl
  · split
    · rfl
    · split
      · rfl
      · refine strict_checkDeclaration ?_ _ _
        exact hlive

theorem strict_inSelector (h : s.Builds frames) (k : Text.Cursor) (c : Char) :
    Strict.inSelector o k c s = some (s.inSelector o k c) := by
  unfold Strict.inSelector
  split
  · next hbrace =>
    rw [strict_openSelector h]
    simp only [Bool.and_eq_true, Bool.not_eq_true', beq_iff_eq] at hbrace
    simp [State.inSelector, hbrace]
  · split
    · next hbrace =>
      rw [strict_closeBlock h]
      simp only [Bool.and_eq_true, Bool.not_eq_true', beq_iff_eq] at hbrace
      simp [State.inSelector, hbrace]
    · rfl

theorem strict_inProperty (h : s.Builds frames) (k : Text.Cursor) (c : Char) :
    Strict.inProperty o k c s = some (s.inProperty o k c) := by
  unfold Strict.inProperty
  split
  · next hbrace =>
    rw [strict_closeBlock h]
    simp only [Bool.and_eq_true, Bool.not_eq_true', beq_iff_eq] at hbrace
    simp [State.inProperty, hbrace]
  · rfl

theorem strict_popMode_endDeclaration (hlive : s.document.isLive s.current) (mode : Mode) :
    Strict.endDeclaration o (s.popMode mode) = some ((s.popMode mode).endDeclaration o) := by
  refine strict_endDeclaration ?_
  rw [State.popMode_eq]
  exact hlive

theorem strict_inValue (h : s.Builds frames) (k : Text.Cursor) (c : Char) :
    Strict.inValue o k c s = some (s.inValue o k c) := by
  have hlive := h.isLive_current
  unfold Strict.inValue
  split
  · next hlast =>
    rw [strict_popMode_endDeclaration hlive, State.inValue, if_pos hlast]
    rfl
  split
  · next hlast hbreak =>
    have hwarn : (s.warn "Added semicolon to the end of declaration").document.isLive
        (s.warn "Added semicolon to the end of declaration").current := hlive
    rw [strict_popMode_endDeclaration hwarn, State.inValue, if_neg hlast, if_pos hbreak]
    rfl
  split
  · next hlast hbreak hsemicolon =>
    rw [strict_popMode_endDeclaration hlive, State.inValue, if_neg hlast, if_neg hbreak]
    simp only [Bool.and_eq_true, Bool.not_eq_true', beq_iff_eq] at hsemicolon
    simp [hsemicolon]
  split
  · next hlast hbreak hsemicolon hbrace =>
    have hedits : Edits o (fun _ => True) s (s.endDeclaration o) := endDeclaration_edits fun _ _ => trivial
    obtain ⟨frames', hend⟩ := hedits.builds ⟨_, h⟩
    rw [strict_endDeclaration hlive, State.inValue, if_neg hlast, if_neg hbreak]
    simp only [bind_eq_bind, bind_some, strict_closeBlock hend]
    simp only [Bool.and_eq_true, Bool.not_eq_true', beq_iff_eq] at hbrace
    simp [hbrace]
  · rfl

/-! ## Runs -/

theorem strict_step (h : s.Builds frames) (k : Text.Cursor) (c : Char) : Strict.step o k c s = some (s.step o k c) := by
  unfold Strict.step
  split
  · next hmode => rw [strict_inSelector h, State.step, hmode]
  · next hmode => rw [strict_inProperty h, State.step, hmode]
  · next hmode => rw [strict_inValue h, State.step, hmode]
  · rfl

theorem strict_next {r : Reader} (h : r.state.Builds frames) : Strict.next o r = some (r.next o) := by
  unfold Strict.next
  split
  · next hrest => rw [next_of_nil hrest]
  · next c tail hrest =>
    split
    · rfl
    · next hbrace =>
      obtain ⟨line, hline⟩ := r.state.countLine_eq c
      have hcount : (r.state.countLine c).Builds frames := by
        rw [hline]
        exact h.congr rfl rfl
      rw [strict_step hcount, next, hrest]
      simp only [if_neg hbrace]
      rfl

theorem strict_run {r : Reader} (h : ∃ frames, r.state.Builds frames) {n : Nat} (hn : r.measure ≤ n) :
    Strict.run o n r = some (r.run o) := by
  induction n generalizing r with
  | zero =>
    have hrest : r.cursor.rest = [] := by
      refine List.eq_nil_of_length_eq_zero ?_
      unfold measure at hn
      omega
    rw [Strict.run, hrest, run_of_nil hrest]
    rfl
  | succ n ih =>
    by_cases hrest : r.cursor.rest = []
    · rw [Strict.run, hrest, run_of_nil hrest]
      rfl
    · obtain ⟨frames, hbuilds⟩ := h
      have hedits : Edits o (fun _ => True) r.state (r.next o).state := next_edits fun _ _ _ => trivial
      have hless := measure_next_lt o r hrest
      rw [Strict.run, if_neg (by simpa using hrest), strict_next hbuilds, bind_some,
        ih (hedits.builds ⟨_, hbuilds⟩) (by omega), run_next]

theorem strict_finish (h : s.Builds frames) : Strict.finish o s = some (s.finish o) := by
  have hclosed : Edits o (fun _ => True) s (s.finishString o).finishBracket :=
    (finishBracket_acts o s ⟨[], []⟩ ' ').edits fun _ _ _ => trivial
  obtain ⟨frames', hbuilds⟩ := hclosed.builds ⟨_, h⟩
  unfold Strict.finish State.finish
  simp only
  split
  · next hmode => rw [strict_endDeclaration hbuilds.isLive_current, State.finishWords, hmode]
  · rfl

/-- **The reader never looks up a block that is not there.** -/
theorem strict_read (o : Options) (css : String) : Strict.read o css = some (Document.read o css) := by
  obtain ⟨n, hrun⟩ := run_start_eq_after o css
  obtain ⟨frames, hbuilds⟩ := after_builds o css n
  rw [← hrun] at hbuilds
  have hstart : ∃ frames, (start css).state.Builds frames := ⟨_, Document.empty_builds⟩
  rw [Strict.read, strict_run hstart (Nat.le_refl _)]
  simp only [bind_eq_bind, bind_some, strict_finish hbuilds]
  rfl

end Reader

end Stylesheet
