import Stylesheet.Proofs.Reader.Growth

/-!
# The discipline of the stack and the buffers

Constructs of a stylesheet stand inside each other, and the reader keeps on a stack which mode to return to behind
each of them. Nothing in the types says that what is pushed is popped again. This module shows that it is: at every
place of every text the stack holds one mode for each open block, and above that what the mode at that place calls
for (`Pending`). The buffers of a construct are empty outside of it, so that no text leaks from one construct into
another.

Which mode a block returns to depends on where it was opened, which a state does not remember. So the run is
accompanied by a `Trail` that does: it takes note of the mode in which the last at-sign was read, and of one mode
for each open block. The trail only watches; it has no part in what is read.
-/

namespace Stylesheet.Reader

open State List

/-! ## The trail of a run -/

/-- The mode in which the last at-sign was read, behind a step from one state to another. -/
def nextAtSign (s t : State) (atSign : Mode) : Mode :=
  if t.mode = .atRule ∧ (s.mode = .selector ∨ s.mode = .property) then s.mode else atSign

/-- The mode in which the block that was just opened was come upon: a selector between blocks, an at-rule where
its at-sign was read. -/
def openingMode (t : State) (atSign : Mode) : Mode :=
  if (t.document.get? t.current).any (·.isSelector) then .selector else atSign

/-- One mode for each open block, behind a step from one state to another. -/
def nextMarks (s t : State) (atSign : Mode) (marks : List Mode) : List Mode :=
  if s.openBlocks.length < t.openBlocks.length then openingMode t atSign :: marks
  else marks.drop (s.openBlocks.length - t.openBlocks.length)

/-- A reader together with what is remembered of its run. -/
structure Trail where
  reader : Reader
  /-- The mode in which the last at-sign was read. -/
  atSign : Mode := .selector
  /-- For each open block the mode in which it was come upon, innermost first. -/
  marks : List Mode := []

/-- One step of the reader, watched. -/
def Trail.next (o : Options) (t : Trail) : Trail :=
  { reader := t.reader.next o
    atSign := nextAtSign t.reader.state (t.reader.next o).state t.atSign
    marks := nextMarks t.reader.state (t.reader.next o).state t.atSign t.marks }

/-- The trail of the first `n` steps over a stylesheet. -/
def Trail.after (o : Options) (css : String) (n : Nat) : Trail := (Trail.next o)^[n] { reader := start css }

theorem Trail.after_succ (o : Options) (css : String) (n : Nat) :
    Trail.after o css (n + 1) = (Trail.after o css n).next o :=
  Function.iterate_succ_apply' _ _ _

/-- The trail only watches. -/
theorem Trail.reader_after (o : Options) (css : String) (n : Nat) :
    (Trail.after o css n).reader = Reader.after o css n := by
  induction n with
  | zero => rfl
  | succ n ih => rw [Trail.after_succ, Reader.after_succ, ← ih, Trail.next]

theorem nextMarks_of_eq {s t : State} (h : t.openBlocks = s.openBlocks) (atSign : Mode)
    (marks : List Mode) : nextMarks s t atSign marks = marks := by
  simp [nextMarks, h]

theorem nextMarks_of_cons {s t : State} {id : BlockId} (h : t.openBlocks = id :: s.openBlocks)
    (atSign : Mode) (marks : List Mode) :
    nextMarks s t atSign marks = openingMode t atSign :: marks := by
  simp [nextMarks, h]

theorem nextMarks_of_tail {s t : State} (h : t.openBlocks = s.openBlocks.tail) (atSign : Mode)
    {marks : List Mode} (hlength : marks.length = s.openBlocks.length) :
    nextMarks s t atSign marks = marks.tail := by
  unfold nextMarks
  rw [h]
  cases hopen : s.openBlocks with
  | nil => simp_all
  | cons id path => simp

/-! ## What the stack and the buffers hold -/

/-- What the stack holds above the modes of the open blocks: nothing between the constructs of a block, and inside
a construct the modes it has to go through. `base` is the construct that functions and strings stand in. -/
inductive Pending : (base mode : Mode) → List Mode → Prop
  | selector : Pending .selector .selector []
  | property : Pending .property .property []
  | atRule : Pending .atRule .atRule []
  | value : Pending .value .value [.property]
  | valueBracket : Pending .value .bracket [.value, .property]
  | atBracket : Pending .atRule .bracket [.atRule]
  | string {base mode : Mode} {pending : List Mode} (h : Pending base mode pending)
      (hproperty : mode ≠ .property) (hstring : mode ≠ .string) : Pending base .string (mode :: pending)

/-- The modes of the open blocks lead back to selectors, or to properties of a block around. -/
def Returnable : List Mode → Prop
  | [] => True
  | mode :: marks => (mode = .selector ∨ mode = .property ∧ marks ≠ []) ∧ Returnable marks

/-- What the buffers hold inside of a construct, and that properties stand inside of blocks. -/
def Buffers (s : State) (atSign : Mode) : Mode → Prop
  | .selector => s.property = "" ∧ s.part = "" ∧ s.parts = []
  | .property => s.selector = "" ∧ s.part = "" ∧ s.parts = [] ∧ s.openBlocks ≠ []
  | .value => s.selector = "" ∧ s.openBlocks ≠ []
  | .atRule =>
    s.selector = "" ∧ s.property = "" ∧ bodyMode s.origin = atSign ∧
      (s.origin = .declarations → s.openBlocks ≠ [])
  | .string => False
  | .bracket => False

/-- The invariant of a run inside of a construct. -/
structure Steady (s : State) (atSign : Mode) (marks : List Mode) (base : Mode) (pending : List Mode) :
    Prop where
  inside : Pending base s.mode pending
  returns : s.returns = pending ++ marks
  length : marks.length = s.openBlocks.length
  returnable : Returnable marks
  buffers : Buffers s atSign base
  depth : s.mode = .bracket ∨ pending.head? = some .bracket → 1 ≤ s.depth
  unstrayed : Unstrayed s.log

/-- The invariant of a run. -/
def Tracked (s : State) (atSign : Mode) (marks : List Mode) : Prop :=
  ∃ base pending, Steady s atSign marks base pending

/-- The invariant behind a step from one state to another. -/
def Follows (s : State) (atSign : Mode) (marks : List Mode) (t : State) : Prop :=
  Tracked t (nextAtSign s t atSign) (nextMarks s t atSign marks)

/-! ## Steps that stay in a construct -/

variable {o : Options} {s t : State} {atSign base : Mode} {marks pending : List Mode}

/-- Behind a step that opens and closes no block and comes upon no at-sign. -/
theorem Follows.of_tracked (hopen : t.openBlocks = s.openBlocks)
    (hmode : t.mode = .atRule → s.mode ≠ .selector ∧ s.mode ≠ .property)
    (h : Tracked t atSign marks) : Follows s atSign marks t := by
  unfold Follows
  rw [nextMarks_of_eq hopen, nextAtSign, if_neg]
  · exact h
  · rintro ⟨hrule, hmode'⟩
    rcases hmode' with hmode' | hmode'
    · exact (hmode hrule).1 hmode'
    · exact (hmode hrule).2 hmode'

/-- Behind a step that comes upon an at-sign. -/
theorem Follows.of_atSign (hopen : t.openBlocks = s.openBlocks) (hrule : t.mode = .atRule)
    (hmode : s.mode = .selector ∨ s.mode = .property) (h : Tracked t s.mode marks) :
    Follows s atSign marks t := by
  unfold Follows
  rw [nextMarks_of_eq hopen, nextAtSign, if_pos ⟨hrule, hmode⟩]
  exact h

/-- A step that stays in the mode and changes buffers only. -/
theorem Steady.follows (h : Steady s atSign marks base pending) (hmode : t.mode = s.mode)
    (hreturns : t.returns = s.returns) (hopen : t.openBlocks = s.openBlocks)
    (hbuffers : Buffers t atSign base)
    (hdepth : s.mode = .bracket ∨ pending.head? = some .bracket → 1 ≤ t.depth)
    (hlog : Unstrayed t.log) : Follows s atSign marks t := by
  refine .of_tracked hopen ?_ ⟨base, pending, ?_, ?_, ?_, h.returnable, hbuffers, ?_, hlog⟩
  · intro hrule
    rw [← hmode, hrule]
    exact ⟨by decide, by decide⟩
  · rw [hmode]
    exact h.inside
  · rw [hreturns]
    exact h.returns
  · rw [hopen]
    exact h.length
  · rw [hmode]
    exact hdepth

/-- A string interrupts everything but the name of a property. -/
theorem Steady.beginString (h : Steady s atSign marks base pending) (hproperty : s.mode ≠ .property)
    (hstring : s.mode ≠ .string) (quote : Char) (keepQuotes : Bool) :
    Follows s atSign marks (s.beginString quote keepQuotes) := by
  refine .of_tracked rfl (fun hrule => by cases hrule) ⟨base, s.mode :: pending, ?_⟩
  refine ⟨.string h.inside hproperty hstring, ?_, h.length, h.returnable, ?_, ?_, h.unstrayed⟩
  · show s.mode :: s.returns = s.mode :: pending ++ marks
    rw [h.returns, cons_append]
  · cases base <;> exact h.buffers
  · rintro (hbracket | hbracket)
    · cases hbracket
    · exact h.depth (.inl (Option.some.inj hbracket))

theorem Steady.readComment (h : Steady s atSign marks base pending) (k : Text.Cursor) :
    Follows s atSign marks (s.readComment o k).1 := by
  obtain ⟨line, document, heq⟩ := readComment_eq o s k
  rw [heq]
  refine h.follows rfl rfl rfl ?_ h.depth h.unstrayed
  cases base <;> exact h.buffers

/-! ## Steps that open or close something -/

/-- Behind the end of a block, with all buffers empty. -/
theorem Follows.of_closed (hlength : marks.length = s.openBlocks.length) (hreturnable : Returnable marks)
    (hmode : t.mode = marks.head?.getD .selector) (hreturns : t.returns = marks.tail)
    (hopen : t.openBlocks = s.openBlocks.tail) (hselector : t.selector = "") (hproperty : t.property = "")
    (hpart : t.part = "") (hparts : t.parts = []) (hlog : Unstrayed t.log) :
    Follows s atSign marks t := by
  unfold Follows
  rw [nextMarks_of_tail hopen atSign hlength]
  have hlength' : marks.tail.length = t.openBlocks.length := by
    rw [hopen, length_tail, length_tail, hlength]
  cases marks with
  | nil =>
    refine ⟨.selector, [], ?_, hreturns, hlength', trivial, ⟨hproperty, hpart, hparts⟩, ?_, hlog⟩
    · rw [hmode]
      exact .selector
    · simp [hmode]
  | cons mark marks =>
    obtain ⟨rfl | ⟨rfl, hmarks⟩, hreturnable⟩ := hreturnable
    · refine ⟨.selector, [], ?_, hreturns, hlength', hreturnable, ⟨hproperty, hpart, hparts⟩, ?_, hlog⟩
      · rw [hmode]
        exact .selector
      · simp [hmode]
    · have hblocks : t.openBlocks ≠ [] := by
        intro hnil
        rw [hnil] at hlength'
        exact hmarks (eq_nil_of_length_eq_zero hlength')
      refine ⟨.property, [], ?_, hreturns, hlength', hreturnable, ⟨hselector, hpart, hparts, hblocks⟩, ?_, hlog⟩
      · rw [hmode]
        exact .property
      · simp [hmode]

/-- The end of an at-rule without a body leads back to where its at-sign was read. -/
theorem Steady.endAtRule (h : Steady s atSign marks .atRule []) (hmode : s.mode = .atRule) :
    Follows s atSign marks (s.endAtRule o) := by
  obtain ⟨document, new, hnew, heq⟩ := endAtRule_eq o s
  obtain ⟨hselector, hproperty, -, hblocks⟩ := h.buffers
  rw [heq]
  have hlog := h.unstrayed.append hnew
  refine .of_tracked rfl (fun _ => by simp [hmode]) ?_
  cases horigin : s.origin with
  | declarations =>
    exact ⟨.property, [], .property, h.returns, h.length, h.returnable,
      ⟨hselector, rfl, rfl, hblocks horigin⟩, by simp [bodyMode], hlog⟩
  | rules =>
    exact ⟨.selector, [], .selector, h.returns, h.length, h.returnable, ⟨hproperty, rfl, rfl⟩,
      by simp [bodyMode], hlog⟩

/-- The frame of the innermost block tells what kind of a block it is. -/
theorem isSelector_current {f : Frame} {fs : List Frame} (h : s.Builds (f :: fs)) :
    (s.document.get? s.current).any (·.isSelector) = (f.kind != .atBlock) := by
  obtain ⟨p, ps, hplaced, hframes⟩ := h
  obtain ⟨rfl, rfl⟩ := cons.inj hframes
  have hget := hplaced.bears.get?_parent
  rw [hplaced.id_eq] at hget
  rw [current, hget, Option.any_some]
  cases hkind : p.head.kind <;> simp [Block.isSelector, Head.block, Spot.frame, hkind]

/-- The block of an at-rule is marked with the mode in which its at-sign was read. -/
theorem Steady.openAtBlock (h : Steady s atSign marks .atRule []) (hbuilds : ∃ frames, s.Builds frames)
    (body : List Char) : Follows s atSign marks (s.openAtBlock o body) := by
  obtain ⟨frames, hbuilds⟩ := hbuilds
  obtain ⟨f, fs, rfl⟩ := hbuilds.exists_cons
  have hcurrent := isSelector_current (openAtBlock_builds (o := o) hbuilds body)
  obtain ⟨document, heq⟩ := openAtBlock_eq o s body
  obtain ⟨hselector, hproperty, horigin, hblocks⟩ := h.buffers
  generalize s.openAtBlock o body = t at heq hcurrent
  have hopen : t.openBlocks = s.document.fresh :: s.openBlocks := by rw [heq]
  have hmark : nextMarks s t atSign marks = atSign :: marks := by
    rw [nextMarks_of_cons hopen, openingMode, hcurrent]
    rfl
  have hreturnable : Returnable (atSign :: marks) := by
    refine ⟨?_, h.returnable⟩
    rw [← horigin]
    cases hbody : s.origin with
    | rules => exact .inl rfl
    | declarations =>
      refine .inr ⟨rfl, fun hnil => hblocks hbody ?_⟩
      exact eq_nil_of_length_eq_zero (by rw [← h.length, hnil]; rfl)
  have hreturns : t.returns = [] ++ atSign :: marks := by
    rw [heq, nil_append, horigin, h.returns, nil_append]
  have hlength : (atSign :: marks).length = t.openBlocks.length := by
    rw [heq, length_cons, length_cons, h.length]
  unfold Follows
  rw [hmark]
  rw [heq] at hreturns hlength ⊢
  cases bodyOf s.flushPart.parts body with
  | rules =>
    exact ⟨.selector, [], .selector, hreturns, hlength, hreturnable, ⟨hproperty, rfl, rfl⟩, by simp [bodyMode],
      h.unstrayed⟩
  | declarations =>
    exact ⟨.property, [], .property, hreturns, hlength, hreturnable,
      ⟨hselector, rfl, rfl, cons_ne_nil _ _⟩, by simp [bodyMode], h.unstrayed⟩

/-- The block of a selector is marked with the mode between blocks. -/
theorem Steady.openSelector (h : Steady s atSign marks .selector []) (hbuilds : ∃ frames, s.Builds frames) :
    Follows s atSign marks (s.openSelector o) := by
  obtain ⟨frames, hbuilds⟩ := hbuilds
  obtain ⟨f, fs, rfl⟩ := hbuilds.exists_cons
  have hcurrent : ((s.openSelector o).document.get? (s.openSelector o).current).any (·.isSelector) = true := by
    cases hearlier : earlierSelector? o s.document s.current (s.selectorName o) with
    | none =>
      rw [isSelector_current (openSelector_builds_new hbuilds hearlier)]
      rfl
    | some id =>
      obtain ⟨left, fragments, ds, children, right, -, hagain⟩ :=
        openSelector_builds_again hbuilds hearlier
      rw [isSelector_current hagain]
      rfl
  obtain ⟨id, document, heq⟩ := openSelector_eq o s
  obtain ⟨hproperty, hpart, hparts⟩ := h.buffers
  generalize s.openSelector o = t at heq hcurrent
  have hopen : t.openBlocks = id :: s.openBlocks := by rw [heq]
  have hmark : nextMarks s t atSign marks = .selector :: marks := by
    rw [nextMarks_of_cons hopen, openingMode, hcurrent]
    rfl
  unfold Follows
  rw [hmark, heq]
  refine ⟨.property, [], .property, ?_, ?_, ⟨.inl rfl, h.returnable⟩,
    ⟨rfl, hpart, hparts, cons_ne_nil _ _⟩, by simp, h.unstrayed⟩
  · rw [h.returns]
    rfl
  · rw [length_cons, length_cons, h.length]

/-! ## The modes -/

/-- What an escape leaves of a state. -/
theorem Steady.readEscape (h : Steady s atSign marks base pending) {k : Text.Cursor} {text : String} {n : Nat}
    (hescape : s.readEscape o k = (text, t, n)) :
    Unstrayed t.log ∧ ∃ line new, t = { s with line, log := s.log ++ new } := by
  obtain ⟨line, new, hnew, rfl⟩ := readEscape_eq hescape
  exact ⟨h.unstrayed.append hnew, line, new, rfl⟩

theorem inSelector_follows (h : Steady s atSign marks .selector []) (hmode : s.mode = .selector)
    (hbuilds : ∃ frames, s.Builds frames) (k : Text.Cursor) (c : Char) :
    Follows s atSign marks (s.inSelector o k c).1 := by
  have hbuffers := h.buffers
  apply inSelector_cases (P := fun t _ => Follows s atSign marks t)
  case space =>
    intro _ _
    obtain ⟨selector, heq⟩ := spaceSelector_eq s
    rw [heq]
    exact h.follows rfl rfl rfl hbuffers h.depth h.unstrayed
  case comment => exact fun _ _ => h.readComment k
  case brace => exact fun _ _ => h.openSelector hbuilds
  case atSign =>
    intro _ _ _
    refine .of_atSign rfl rfl (.inl hmode) ?_
    rw [hmode]
    exact ⟨.atRule, [], .atRule, h.returns, h.length, h.returnable, ⟨rfl, hbuffers.1, rfl, by simp⟩, by simp,
      h.unstrayed⟩
  case quote => exact fun _ _ => h.beginString (by simp [hmode]) (by simp [hmode]) _ _
  case close =>
    intro _ _
    obtain ⟨document, heq⟩ := closeBlock_eq o s
    rw [heq, popMode_eq]
    refine .of_closed h.length h.returnable ?_ ?_ rfl rfl hbuffers.1 hbuffers.2.1 hbuffers.2.2 h.unstrayed
    · rw [h.returns, nil_append]
    · rw [h.returns, nil_append]
  case escape =>
    intro _ _ text t n hescape
    obtain ⟨hlog, line, new, rfl⟩ := h.readEscape hescape
    exact h.follows rfl rfl rfl hbuffers h.depth hlog
  case universal =>
    intro _ _ _
    refine h.follows rfl rfl rfl hbuffers h.depth (h.unstrayed.append ?_)
    exact .singleton (c := 'R') (by decide) (by decide)
  all_goals intros; exact h.follows rfl rfl rfl hbuffers h.depth h.unstrayed

theorem inProperty_follows (h : Steady s atSign marks .property []) (hmode : s.mode = .property)
    (k : Text.Cursor) (c : Char) : Follows s atSign marks (s.inProperty o k c).1 := by
  have hbuffers := h.buffers
  obtain ⟨hselector, hpart, hparts, hblocks⟩ := h.buffers
  apply inProperty_cases (P := fun t _ => Follows s atSign marks t)
  case value =>
    intro _ _ _
    refine .of_tracked rfl (fun hrule => by cases hrule) ⟨.value, [.property], ?_⟩
    refine ⟨.value, ?_, h.length, h.returnable, ⟨hselector, hblocks⟩, by simp [pushMode], h.unstrayed⟩
    show .property :: s.returns = _
    rw [h.returns]
    rfl
  case comment => exact fun _ _ => h.readComment k
  case close =>
    intro _ _
    obtain ⟨document, heq⟩ := closeBlock_eq o s
    rw [heq, popMode_eq]
    refine .of_closed h.length h.returnable ?_ ?_ rfl rfl rfl hpart hparts h.unstrayed
    · rw [h.returns, nil_append]
    · rw [h.returns, nil_append]
  case atSign =>
    intro _ _ hempty
    have hproperty : s.property = "" := by simpa using hempty
    refine .of_atSign rfl rfl (.inr hmode) ?_
    rw [hmode]
    exact ⟨.atRule, [], .atRule, h.returns, h.length, h.returnable,
      ⟨hselector, hproperty, rfl, fun _ => hblocks⟩, by simp, h.unstrayed⟩
  case escape =>
    intro _ _ text t n hescape
    obtain ⟨hlog, line, new, rfl⟩ := h.readEscape hescape
    exact h.follows rfl rfl rfl hbuffers h.depth hlog
  all_goals intros; exact h.follows rfl rfl rfl hbuffers h.depth h.unstrayed

/-- A step over words of a value or an at-rule. -/
theorem inWords_follows (h : Steady s atSign marks base pending)
    (hbuffers : ∀ part parts, Buffers { s with part, parts } atSign base) (k : Text.Cursor) (c : Char) :
    Follows s atSign marks (s.inWords k c).1 := by
  refine inWords_cases (P := fun t _ => Follows s atSign marks t) ?_ ?_
  · intro _
    obtain ⟨parts, heq⟩ := flushPart_eq s
    rw [heq]
    exact h.follows rfl rfl rfl (hbuffers _ _) h.depth h.unstrayed
  · intro _
    exact h.follows rfl rfl rfl (hbuffers _ _) h.depth h.unstrayed

/-- The end of a declaration leads back to the name of a property. -/
theorem Steady.endDeclaration (h : Steady s atSign marks .value [.property])
    (ht : ∃ new, Unstrayed new ∧ t = { s with log := s.log ++ new }) :
    Follows s atSign marks ((t.popMode .property).endDeclaration o) := by
  obtain ⟨new, hnew, rfl⟩ := ht
  obtain ⟨hselector, hblocks⟩ := h.buffers
  rw [popMode_eq]
  simp only [h.returns, cons_append, head?_cons, Option.getD_some, tail_cons, nil_append]
  obtain ⟨document, new', hnew', heq⟩ := endDeclaration_eq o
    (s := { s with mode := .property, returns := marks, log := s.log ++ new }) hblocks
  rw [heq]
  refine .of_tracked rfl (fun hrule => by cases hrule) ⟨.property, [], ?_⟩
  exact ⟨.property, rfl, h.length, h.returnable, ⟨hselector, rfl, rfl, hblocks⟩, by simp,
    (h.unstrayed.append hnew).append hnew'⟩

theorem inValue_follows (h : Steady s atSign marks .value [.property]) (hmode : s.mode = .value)
    (k : Text.Cursor) (c : Char) : Follows s atSign marks (s.inValue o k c).1 := by
  have hbuffers := h.buffers
  obtain ⟨hselector, hblocks⟩ := h.buffers
  have hself : ∃ new, Unstrayed new ∧ s = { s with log := s.log ++ new } := ⟨[], .nil, by rw [append_nil]⟩
  apply inValue_cases (P := fun t _ => Follows s atSign marks t)
  case last => exact fun _ => h.endDeclaration hself
  case inferred =>
    intro _ _
    exact h.endDeclaration ⟨_, .singleton (c := 'A') (by decide) (by decide), rfl⟩
  case words => exact fun _ _ => inWords_follows h (fun _ _ => hbuffers) k c
  case comment => exact fun _ _ => h.readComment k
  case quote => exact fun _ _ => h.beginString (by simp [hmode]) (by simp [hmode]) _ _
  case bracket =>
    intro _ _
    refine .of_tracked rfl (fun hrule => by cases hrule) ⟨.value, [.value, .property], ?_⟩
    refine ⟨.valueBracket, ?_, h.length, h.returnable, hbuffers, fun _ => le_rfl, h.unstrayed⟩
    show .value :: s.returns = _
    rw [h.returns]
    rfl
  case mark =>
    intro _ _
    obtain ⟨parts, heq⟩ := flushPart_eq s
    rw [heq]
    exact h.follows rfl rfl rfl hbuffers h.depth h.unstrayed
  case escape =>
    intro _ _ text t n hescape
    obtain ⟨hlog, line, new, rfl⟩ := h.readEscape hescape
    exact h.follows rfl rfl rfl hbuffers h.depth hlog
  case semicolon => exact fun _ _ => h.endDeclaration hself
  case close =>
    intro _ _
    obtain ⟨document, new, hnew, hend⟩ := endDeclaration_eq o hblocks
    obtain ⟨document', hclose⟩ := closeBlock_eq o (s.endDeclaration o)
    rw [hclose, hend, popMode_eq]
    refine .of_closed h.length h.returnable ?_ ?_ rfl rfl rfl rfl rfl (h.unstrayed.append hnew)
    · simp [h.returns]
    · simp [h.returns]
  case other => exact fun _ _ _ _ _ => h.follows rfl rfl rfl hbuffers h.depth h.unstrayed

section

variable (h : Steady s atSign marks base pending)
include h

/-- The arguments of a function go into the part that is being read. -/
theorem Steady.pushArgument (hbuffers : ∀ part, Buffers { s with part } atSign base) {depth : Nat} (hdepth : 1 ≤ depth) (c : Char) :
    Follows s atSign marks (({ s with depth } : State).pushArgument c) := by
  obtain ⟨part, heq⟩ := pushArgument_eq { s with depth } c
  rw [heq]
  refine h.follows rfl rfl rfl ?_ (fun _ => hdepth) h.unstrayed
  have := hbuffers part
  cases base <;> exact this

/-- The end of a function leads back to the value or at-rule it stands in. -/
theorem Steady.closeBracket (hmode : s.mode = .bracket)
    (hback : t.mode = s.returns.head?.getD .value) (hreturns : t.returns = s.returns.tail)
    (hopen : t.openBlocks = s.openBlocks) (hselector : t.selector = s.selector)
    (hproperty : t.property = s.property) (horigin : t.origin = s.origin) (hlog : Unstrayed t.log) :
    Tracked t atSign marks := by
  have hinside := h.inside
  have hbuffers := h.buffers
  have hlength : marks.length = t.openBlocks.length := by rw [hopen, h.length]
  rw [hmode] at hinside
  cases hinside with
  | valueBracket =>
    simp only [h.returns, cons_append, head?_cons, Option.getD_some, tail_cons] at hback hreturns
    refine ⟨.value, [.property], ?_, hreturns, hlength, h.returnable, ?_, by simp [hback], hlog⟩
    · rw [hback]
      exact .value
    · unfold Buffers at hbuffers ⊢
      rw [hselector, hopen]
      exact hbuffers
  | atBracket =>
    simp only [h.returns, cons_append, head?_cons, Option.getD_some, tail_cons] at hback hreturns
    refine ⟨.atRule, [], ?_, hreturns, hlength, h.returnable, ?_, by simp [hback], hlog⟩
    · rw [hback]
      exact .atRule
    · unfold Buffers at hbuffers ⊢
      rw [hselector, hproperty, horigin, hopen]
      exact hbuffers

theorem inBracket_follows (hmode : s.mode = .bracket)
    (k : Text.Cursor) (c : Char) : Follows s atSign marks (s.inBracket k c).1 := by
  have hdepth := h.depth (.inl hmode)
  have hinside := h.inside
  rw [hmode] at hinside
  -- functions stand in a value or in an at-rule, and neither says anything about the part
  have hbuffers : ∀ part, Buffers { s with part } atSign base := by
    have := h.buffers
    cases hinside <;> exact fun _ => this
  apply inBracket_cases (P := fun t _ => Follows s atSign marks t)
  case run => exact fun _ => h.follows rfl rfl rfl (hbuffers _) h.depth h.unstrayed
  case quote => exact fun _ _ => h.beginString (by simp [hmode]) (by simp [hmode]) _ _
  case close =>
    intro _ _ _
    obtain ⟨part, heq⟩ := pushArgument_eq { s with depth := s.depth - 1 } c
    rw [heq, popMode_eq]
    exact .of_tracked rfl (fun _ => by simp [hmode])
      (h.closeBracket hmode rfl rfl rfl rfl rfl rfl h.unstrayed)
  case deeper => exact fun _ _ => h.pushArgument hbuffers (by omega) c
  case shallower => exact fun _ _ hne => h.pushArgument hbuffers (by omega) c
  case space => exact fun _ => h.pushArgument hbuffers hdepth ' '
  case comma => exact fun _ _ => h.pushArgument hbuffers hdepth c

/-- The end of a string leads back to what it interrupts. -/
theorem Steady.closeString (hmode : s.mode = .string)
    (string : String) {new : List Message} (hnew : Unstrayed new) :
    Follows s atSign marks (({ s with string, log := s.log ++ new } : State).closeString o) := by
  have hinside := h.inside
  rw [hmode] at hinside
  cases hinside with
  | @string base mode pending hinside hproperty hstring =>
    have hreturns : s.returns = mode :: (pending ++ marks) := by rw [h.returns, cons_append]
    obtain ⟨selector, part, heq, hkept⟩ := closeString_eq o { s with string, log := s.log ++ new }
    rw [heq]
    simp only [hreturns, head?_cons, Option.getD_some, tail_cons] at hkept ⊢
    refine .of_tracked rfl (fun _ => by simp [hmode]) ⟨base, pending, hinside, rfl, h.length, h.returnable, ?_, ?_, ?_⟩
    · have hbuffers := h.buffers
      cases hinside with
      | selector =>
        rw [if_pos rfl] at hkept
        exact ⟨hbuffers.1, hkept.trans hbuffers.2.1, hbuffers.2.2⟩
      | property => exact absurd rfl hproperty
      | string => exact absurd rfl hstring
      | _ =>
        rw [if_neg (by decide)] at hkept
        exact ⟨hkept.trans hbuffers.1, hbuffers.2⟩
    · rintro (hbracket | hbracket)
      · exact h.depth (.inr (congrArg some hbracket))
      · cases hinside <;> simp_all
    · exact h.unstrayed.append hnew

theorem inString_follows (hmode : s.mode = .string)
    (k : Text.Cursor) (c : Char) : Follows s atSign marks (s.inString o k c).1 := by
  have hbuffers (string : String) : Buffers { s with string } atSign base := by
    have := h.buffers
    cases base <;> exact this
  apply inString_cases (P := fun t _ => Follows s atSign marks t)
  case newline =>
    intro _ _
    refine h.follows rfl rfl rfl ?_ h.depth (h.unstrayed.append ?_)
    · have := hbuffers (s.string ++ "\\A ")
      cases base <;> exact this
    · exact .singleton (c := 'F') (by decide) (by decide)
  case close =>
    intro _ _
    have hclose := h.closeString (o := o) hmode (s.string.push c) .nil
    rw [append_nil] at hclose
    exact hclose
  case other => exact h.follows rfl rfl rfl (hbuffers _) h.depth h.unstrayed

end

theorem inAtRule_follows (h : Steady s atSign marks .atRule []) (hmode : s.mode = .atRule)
    (hbuilds : ∃ frames, s.Builds frames) (k : Text.Cursor) (c : Char) :
    Follows s atSign marks (s.inAtRule o k c).1 := by
  have hbuffers := h.buffers
  apply inAtRule_cases (P := fun t _ => Follows s atSign marks t)
  case words => exact fun _ => inWords_follows h (fun _ _ => hbuffers) k c
  case comment => exact fun _ _ => h.readComment k
  case quote => exact fun _ _ => h.beginString (by simp [hmode]) (by simp [hmode]) _ _
  case bracket =>
    intro _ _
    refine .of_tracked rfl (fun hrule => by cases hrule) ⟨.atRule, [.atRule], ?_⟩
    refine ⟨.atBracket, ?_, h.length, h.returnable, hbuffers, fun _ => le_rfl, h.unstrayed⟩
    show .atRule :: s.returns = _
    rw [h.returns]
    rfl
  case semicolon => exact fun _ _ => h.endAtRule hmode
  case comma =>
    intro _ _
    obtain ⟨parts, heq⟩ := flushPart_eq s
    rw [heq]
    exact h.follows rfl rfl rfl hbuffers h.depth h.unstrayed
  case brace => exact fun _ _ => h.openAtBlock hbuilds _
  case escape =>
    intro _ _ text t n hescape
    obtain ⟨hlog, line, new, rfl⟩ := h.readEscape hescape
    exact h.follows rfl rfl rfl hbuffers h.depth hlog
  case other => exact fun _ _ => h.follows rfl rfl rfl hbuffers h.depth h.unstrayed

/-! ## Runs -/

/-- Outside of functions and strings the mode tells what is pending. -/
theorem Steady.ofMode {mode : Mode} (h : Steady s atSign marks base pending) (hmode : s.mode = mode)
    (hbracket : mode ≠ .bracket) (hstring : mode ≠ .string) :
    Steady s atSign marks mode (if mode = .value then [.property] else []) := by
  have hinside := h.inside
  rw [hmode] at hinside
  cases hinside with
  | valueBracket | atBracket => exact absurd rfl hbracket
  | string => exact absurd rfl hstring
  | _ => exact h

/-- A step keeps the discipline. -/
theorem step_follows (h : Tracked s atSign marks) (hbuilds : ∃ frames, s.Builds frames) (k : Text.Cursor)
    (c : Char) : Follows s atSign marks (s.step o k c).1 := by
  obtain ⟨base, pending, h⟩ := h
  unfold step
  cases hmode : s.mode with
  | selector => exact inSelector_follows (h.ofMode hmode (by decide) (by decide)) hmode hbuilds k c
  | property => exact inProperty_follows (h.ofMode hmode (by decide) (by decide)) hmode k c
  | value => exact inValue_follows (h.ofMode hmode (by decide) (by decide)) hmode k c
  | string => exact inString_follows h hmode k c
  | bracket => exact inBracket_follows h hmode k c
  | atRule => exact inAtRule_follows (h.ofMode hmode (by decide) (by decide)) hmode hbuilds k c

/-- The discipline has nothing to do with lines. -/
theorem Tracked.withLine (h : Tracked s atSign marks) (line : Nat) : Tracked { s with line } atSign marks := by
  obtain ⟨base, pending, h⟩ := h
  refine ⟨base, pending, h.inside, h.returns, h.length, h.returnable, ?_, h.depth, h.unstrayed⟩
  have := h.buffers
  cases base <;> exact this

theorem next_follows {r : Reader} (h : Tracked r.state atSign marks) (hbuilds : ∃ frames, r.state.Builds frames) :
    Follows r.state atSign marks (r.next o).state := by
  by_cases hrest : r.cursor.rest = []
  · rw [next_of_nil hrest]
    exact .of_tracked rfl (fun hrule => by simp [hrule]) h
  refine next_cases (P := fun r' => Follows r.state atSign marks r'.state) hrest ?_ ?_
  · intro hbrace
    simp only [atSharedBrace, Bool.and_eq_true, decide_eq_true_eq] at hbrace
    obtain ⟨base, pending, h⟩ := h
    exact (h.ofMode hbrace.1.1 (by decide) (by decide)).endAtRule hbrace.1.1
  · intro c _ _ _
    obtain ⟨line, hline⟩ := r.state.countLine_eq c
    rw [hline]
    exact step_follows (o := o) (h.withLine line) (hbuilds.imp fun _ hbuilds => hbuilds.congr rfl rfl) r.cursor c

/-- The discipline holds in front of every step. -/
theorem Trail.after_tracked (o : Options) (css : String) (n : Nat) :
    Tracked (Trail.after o css n).reader.state (Trail.after o css n).atSign (Trail.after o css n).marks := by
  induction n with
  | zero =>
    exact ⟨.selector, [], .selector, rfl, rfl, trivial, ⟨rfl, rfl, rfl⟩, by simp [Trail.after, start], .nil⟩
  | succ n ih =>
    rw [Trail.after_succ]
    refine next_follows ih ?_
    rw [Trail.reader_after]
    exact after_builds o css n

/-! ## The end of the text -/

theorem finishString_tracked (h : Tracked s atSign marks) :
    ∃ atSign marks, Tracked (s.finishString o) atSign marks := by
  unfold finishString
  split
  · next hmode =>
    obtain ⟨base, pending, h⟩ := h
    exact ⟨_, _, h.closeString hmode _ (.singleton (c := 'U') (by decide) (by decide))⟩
  · exact ⟨_, _, h⟩

theorem finishBracket_tracked (h : Tracked s atSign marks) : Tracked s.finishBracket atSign marks := by
  unfold finishBracket
  split
  · next hmode =>
    obtain ⟨base, pending, h⟩ := h
    simp only
    rw [popMode_eq]
    refine h.closeBracket hmode rfl rfl rfl rfl rfl rfl (h.unstrayed.append ?_)
    exact .singleton (c := 'U') (by decide) (by decide)
  · exact h

/-- The end of the text says nothing about a declaration outside of a block. -/
theorem finish_unstrayed (h : Tracked s atSign marks) : Unstrayed (s.finish o).log := by
  obtain ⟨atSign', marks', hstring⟩ := finishString_tracked (o := o) h
  obtain ⟨base, pending, hwords⟩ := finishBracket_tracked hstring
  unfold finish finishWords
  generalize (s.finishString o).finishBracket = t at hwords
  cases hmode : t.mode with
  | value =>
    have hvalue := hwords.ofMode hmode (by decide) (by decide)
    obtain ⟨document, new, hnew, heq⟩ := endDeclaration_eq o hvalue.buffers.2
    simp only [heq]
    exact hwords.unstrayed.append hnew
  | atRule =>
    obtain ⟨document, new, hnew, heq⟩ := endAtRule_eq o t
    simp only [heq]
    exact hwords.unstrayed.append hnew
  | _ => exact hwords.unstrayed

/-- Nothing that is read is said to be a declaration outside of a block. -/
theorem read_unstrayed (o : Options) (css : String) : Unstrayed (Document.read o css).2 := by
  obtain ⟨n, hn⟩ := run_start_eq_after o css
  have htracked := Trail.after_tracked o css n
  rw [Trail.reader_after, ← hn] at htracked
  exact finish_unstrayed htracked

/-! ## The discipline -/

/-- How many modes a step takes off the stack at most: two at a brace that ends a value together with its block,
and none in an at-rule, which goes back to where it was begun by itself. -/
def Mode.pops : Mode → Nat
  | .value => 2
  | .atRule => 0
  | _ => 1

/-- The stack holds all the modes that a step takes off it, but for a brace that closes nothing. -/
def Poppable (s : State) : Prop :=
  s.mode.pops ≤ s.returns.length ∨ s.mode = .selector ∧ s.openBlocks = []

/-- What the stack and the buffers hold at a place of a text, given the modes of the open blocks. -/
structure Orderly (s : State) (marks : List Mode) : Prop where
  /-- The stack holds the modes of the open blocks, below what the mode calls for. -/
  returns : ∃ base pending, Pending base s.mode pending ∧ s.returns = pending ++ marks
  marks_length : marks.length = s.openBlocks.length
  /-- Declarations stand inside of blocks. -/
  inside_block : s.mode = .property ∨ s.mode = .value → s.openBlocks ≠ []
  one_le_depth : s.mode = .bracket → 1 ≤ s.depth
  /-- A selector is collected between blocks, and while a string interrupts it. -/
  selector_eq : s.mode ≠ .selector → ¬ (s.mode = .string ∧ s.returns.head? = some .selector) → s.selector = ""
  property_eq : s.mode = .selector ∨ s.mode = .atRule → s.property = ""
  part_eq : s.mode = .selector ∨ s.mode = .property → s.part = ""
  parts_eq : s.mode = .selector ∨ s.mode = .property → s.parts = []

/-- The selector is only collected in its own mode, or in a string that interrupts it. -/
theorem Steady.selector_eq (h : Steady s atSign marks base pending) (hmode : s.mode ≠ .selector)
    (hstring : ¬ (s.mode = .string ∧ s.returns.head? = some .selector)) : s.selector = "" := by
  have hinside := h.inside
  have hbuffers := h.buffers
  cases base with
  | selector =>
    -- a selector can only be interrupted by a string
    generalize hm : s.mode = mode at hinside
    cases hinside with
    | selector => exact absurd hm hmode
    | string hinside =>
      cases hinside with
      | selector => exact absurd ⟨hm, by rw [h.returns]; rfl⟩ hstring
      | string => contradiction
  | property => exact hbuffers.1
  | value => exact hbuffers.1
  | atRule => exact hbuffers.1
  | string => exact hbuffers.elim
  | bracket => exact hbuffers.elim

theorem Tracked.orderly (h : Tracked s atSign marks) : Orderly s marks := by
  obtain ⟨base, pending, h⟩ := h
  have hof {mode : Mode} (hmode : s.mode = mode) := h.ofMode hmode
  refine ⟨⟨base, pending, h.inside, h.returns⟩, h.length, ?_, fun hmode => h.depth (.inl hmode), ?_, ?_, ?_, ?_⟩
  · rintro (hmode | hmode)
    · exact (hof hmode (by decide) (by decide)).buffers.2.2.2
    · exact (hof hmode (by decide) (by decide)).buffers.2
  · exact h.selector_eq
  · rintro (hmode | hmode)
    · exact (hof hmode (by decide) (by decide)).buffers.1
    · exact (hof hmode (by decide) (by decide)).buffers.2.1
  · rintro (hmode | hmode)
    · exact (hof hmode (by decide) (by decide)).buffers.2.1
    · exact (hof hmode (by decide) (by decide)).buffers.2.1
  · rintro (hmode | hmode)
    · exact (hof hmode (by decide) (by decide)).buffers.2.2
    · exact (hof hmode (by decide) (by decide)).buffers.2.2.1

theorem Tracked.poppable (h : Tracked s atSign marks) : Poppable s := by
  have horderly := h.orderly
  obtain ⟨base, pending, h⟩ := h
  have hlength : s.returns.length = pending.length + s.openBlocks.length := by
    rw [h.returns, length_append, h.length]
  have hinside := h.inside
  unfold Poppable
  by_cases hopen : s.openBlocks = []
  · have hproperty := mt horderly.inside_block (not_not.mpr hopen)
    generalize s.mode = mode at hinside hproperty ⊢
    cases hinside <;> simp_all [Mode.pops]
  · have hpos := length_pos_of_ne_nil hopen
    generalize s.mode = mode at hinside ⊢
    cases hinside <;> simp_all [Mode.pops] <;> omega

/-- **The stack and the buffers are kept in order.** In front of every step, for every text and whatever the
options: the open blocks are a path of blocks below the root; the stack holds exactly one mode for each of them,
that in which it was come upon, below what the mode at that place calls for; declarations stand inside of blocks;
and no buffer holds anything outside of its construct. So no mode is ever taken off an empty stack but by a brace
that closes nothing, neither by a step nor at the end of the text, and no declaration is dropped for standing outside
of a block. -/
theorem after_orderly (o : Options) (css : String) (n : Nat) :
    let t := Trail.after o css n
    let s := t.reader.state
    t.reader = Reader.after o css n ∧
    (s.openBlocks ++ [Document.root]).IsChain (fun inner outer => inner ∈ s.document.childBlocks outer) ∧
    (∀ id ∈ s.openBlocks ++ [Document.root], s.document.isLive id) ∧
    Orderly s t.marks ∧ Poppable s ∧ Poppable (s.finishString o) ∧
    ∀ m ∈ (Document.read o css).2,
      Text.startsWith m.text "Dropped declaration outside of a block" = false := by
  intro t s
  have htracked : Tracked s t.atSign t.marks := Trail.after_tracked o css n
  have hbuilds : ∃ frames, s.document.Builds s.openBlocks frames := by
    have := after_builds o css n
    rw [← Trail.reader_after] at this
    exact this
  obtain ⟨frames, hbuilds⟩ := hbuilds
  obtain ⟨atSign, marks, hfinish⟩ := finishString_tracked (o := o) htracked
  exact ⟨Trail.reader_after o css n, hbuilds.isChain.1, hbuilds.isChain.2, htracked.orderly, htracked.poppable,
    hfinish.poppable, read_unstrayed o css⟩

end Stylesheet.Reader
