import Stylesheet.Proofs.Reader.Edit

/-!
# How the tree grows while it is read

The blocks that are open while a stylesheet is read are the frames of a tree under construction. Each edit of the
document is a small change of the frames: something is put at the end of the innermost one, a new innermost one is
begun, or the innermost one is closed. A selector that goes on with a block which stands in the innermost one takes
that block out of it again. `Frame.Step` lists these changes, so that what each of them keeps is kept by everything that
is read (`Edits.grow`).

So at every place of every text the open blocks form a path of the tree (`after_builds`), and when all is read, the
table holds the tree and nothing else (`read_plants`).
-/

namespace Stylesheet

/-- A change of the open blocks while a tree is read. -/
inductive Frame.Step : List Frame → List Frame → Prop
  | keep (fs : List Frame) : Step fs fs
  | push (f : Frame) (fs : List Frame) (n : Node) : Step (f :: fs) (f.push n :: fs)
  /-- The root has no declarations. -/
  | declare (f g : Frame) (fs : List Frame) (property : String) (value : Value) :
      Step (f :: g :: fs) (f.declare property value :: g :: fs)
  | enter (f : Frame) (fs : List Frame) (name : String) (kind : BlockKind) : Step (f :: fs) ({ name, kind } :: f :: fs)
  | reopen {f : Frame} (fs : List Frame) {name : String} {kind : BlockKind} {ds : Declarations}
      {left children right : List Node} (hbefore : f.before = left ++ .block name kind ds children :: right)
      (hafter : f.after = []) :
      Step (f :: fs) ({ name, kind, declarations := ds, before := children } ::
        { f with before := left, after := right } :: fs)
  | close (f g : Frame) (fs : List Frame) : Step (f :: g :: fs) (f.close g :: fs)

theorem Frame.Step.rooted {fs fs' : List Frame} (h : Step fs fs') (hroot : Rooted fs) : Rooted fs' := by
  cases h with
  | keep => exact hroot
  | push f fs => cases fs <;> exact hroot
  | declare => exact hroot
  | enter => exact hroot
  | reopen fs => cases fs <;> exact hroot
  | close f g fs => cases fs <;> exact hroot

namespace Reader

variable {frames : List Frame}

namespace State

variable {id : BlockId}
variable {o : Options} {s : State} {f g : Frame} {fs : List Frame}

/-- The open blocks of the document are the given frames. -/
def Builds (s : State) (frames : List Frame) : Prop := s.document.Builds s.openBlocks frames

theorem Builds.congr {t : State} (h : s.Builds frames)
    (hblocks : t.document.blocks = s.document.blocks) (hopen : t.openBlocks = s.openBlocks) :
    t.Builds frames := by
  unfold Builds
  rw [hopen]
  exact Document.Builds.congr h hblocks

/-- A token leaves the tree alone. -/
theorem Builds.pushToken (h : s.Builds frames) (kind : TokenKind) (data : String) :
    (s.pushToken o kind data).Builds frames := by
  rw [pushToken_eq]
  exact h.congr rfl rfl

/-! ## Edits as changes of the frames -/

theorem addComment_builds (h : s.Builds (f :: fs)) (text : List Char) :
    (s.addComment o text).Builds (f.push (.comment (String.ofList text)) :: fs) := by
  have hpush := Document.Builds.push h (t := .comment (String.ofList text)) rfl rfl
  exact Builds.pushToken (s := { s with line := _, document := _ }) hpush _ _

theorem addLineAt_builds (h : s.Builds (f :: fs)) (rule : LineAt) :
    (s.addLineAt o rule).Builds (f.push (.lineAt rule) :: fs) := by
  have htoken := h.pushToken (o := o) .lineAt rule.render
  unfold addLineAt
  generalize s.pushToken o .lineAt rule.render = t at htoken
  exact Document.Builds.push htoken (t := .lineAt rule) rfl rfl

theorem addDeclaration_builds (h : s.Builds (f :: fs)) (property : String) (value : Value) :
    (s.addDeclaration o property value).Builds (f.declare property value :: fs) := by
  have htokens := (h.pushToken (o := o) .property property).pushToken (o := o) .value value.render
  unfold addDeclaration
  generalize (s.pushToken o .property property).pushToken o .value value.render = t at htokens
  exact Document.Builds.declare htokens property value

theorem openAtBlock_builds (h : s.Builds (f :: fs)) (body : List Char) :
    (s.openAtBlock o body).Builds
      ({ name := "@" ++ Value.joinParts s.flushPart.parts, kind := .atBlock } :: f :: fs) := by
  obtain ⟨parts, hflush⟩ := flushPart_eq s
  unfold openAtBlock
  rw [hflush]
  refine Builds.pushToken ?_ _ _
  exact Document.Builds.addBlock h ("@" ++ Value.joinParts parts) .atBlock

theorem closeBlock_builds (h : s.Builds (f :: g :: fs)) : (s.closeBlock o).Builds (f.close g :: fs) := by
  unfold closeBlock
  split
  · next hopen =>
    have hlength := Document.Builds.length_eq h
    simp [hopen] at hlength
  · next id path hopen =>
    refine Builds.pushToken ?_ _ _
    unfold Builds at h
    rw [hopen] at h
    exact Document.Builds.close h

/-! ## Selectors -/

/-- The name of the block that the selector read so far opens. -/
def selectorName (o : Options) (s : State) : String :=
  if o.lowercaseSelectors then Text.lowercase (Text.trim s.selector) else Text.trim s.selector

/-- The block a selector goes on with stands in the given one and has the name of the selector. -/
theorem mem_of_earlierSelector? {d : Document} {parent : BlockId} {name : String}
    (h : earlierSelector? o d parent name = some id) :
    id ∈ d.childBlocks parent ∧ isSelectorNamed d name id = true := by
  unfold earlierSelector? at h
  split at h
  · cases h
  simp only at h
  split at h
  · next found hfound =>
    cases h
    obtain ⟨hprevious, hnamed⟩ := Option.filter_eq_some_iff.mp hfound
    obtain ⟨child, hchild, hid⟩ := Option.bind_eq_some_iff.mp hprevious
    refine ⟨?_, hnamed⟩
    have hmem := List.mem_reverse.mp (List.mem_of_find?_eq_some hchild)
    unfold Document.childBlocks
    cases hget : d.get? parent with
    | none => simp [hget] at hmem
    | some b =>
      rw [hget] at hmem
      exact List.mem_filterMap.mpr ⟨child, hmem, hid⟩
  · split at h
    · exact ⟨List.mem_of_find?_eq_some h, List.find?_some h⟩
    · cases h

/-- A selector that goes on with no other opens a new block. -/
theorem openSelector_builds_new (h : s.Builds (f :: fs))
    (hnone : earlierSelector? o s.document s.current (s.selectorName o) = none) :
    (s.openSelector o).Builds
      ({ name := s.selectorName o, kind := .selector (fragmentsOf (s.selectorName o)) } :: f :: fs) := by
  have hnew := Document.Builds.addBlock h (s.selectorName o) (.selector (fragmentsOf (s.selectorName o)))
  unfold openSelector
  refine Builds.pushToken ?_ _ _
  split
  · next id hsome =>
    exact absurd (hnone.symm.trans hsome) (by simp)
  · exact hnew

/-- A selector that goes on with a block opens that one. -/
theorem openSelector_builds_of_earlier (hsome : earlierSelector? o s.document s.current (s.selectorName o) = some id)
    (h : s.document.Builds (id :: s.openBlocks) frames) : (s.openSelector o).Builds frames := by
  unfold openSelector
  refine Builds.pushToken ?_ _ _
  split
  · next id' hsome' =>
    cases Option.some.inj (hsome.symm.trans hsome')
    exact h
  · next hnone => exact absurd (hnone.symm.trans hsome) (by simp)

/-- A selector that goes on with a block takes it out of the innermost one. -/
theorem openSelector_builds_again (h : s.Builds (f :: fs))
    (hsome : earlierSelector? o s.document s.current (s.selectorName o) = some id) :
    ∃ left fragments ds children right,
      f.before = left ++ .block (s.selectorName o) (.selector fragments) ds children :: right ∧
      (s.openSelector o).Builds
        ({ name := s.selectorName o, kind := .selector fragments, declarations := ds, before := children } ::
          { f with before := left, after := right } :: fs) := by
  obtain ⟨hmem, hnamed⟩ := mem_of_earlierSelector? hsome
  obtain ⟨left, name, kind, ds, children, right, hbefore, ⟨cs, hget⟩, hbuilds⟩ :=
    Document.Builds.exists_reopen h hmem
  -- the block is a selector of the name that is looked for
  simp only [isSelectorNamed, hget, Option.any_some, Bool.and_eq_true, beq_iff_eq, Block.isSelector] at hnamed
  obtain ⟨hselector, rfl⟩ := hnamed
  cases kind with
  | atBlock => cases hselector
  | selector fragments =>
    exact ⟨left, fragments, ds, children, right, hbefore, openSelector_builds_of_earlier hsome hbuilds⟩

end State

/-! ## Runs -/

variable {o : Options} {Allowed : Value → Prop}

/-- There is always a frame for the root. -/
theorem State.Builds.exists_cons {s : State} (h : s.Builds frames) : ∃ f fs, frames = f :: fs := by
  cases frames with
  | nil => simpa using Document.Builds.length_eq h
  | cons f fs => exact ⟨f, fs, rfl⟩

/-- An edit is a change of the frames. -/
theorem Edit.step {s s' : State} (h : Edit o Allowed s s') (hbuilds : s.Builds frames) :
    ∃ frames', Frame.Step frames frames' ∧ s'.Builds frames' := by
  obtain ⟨f, fs, rfl⟩ := hbuilds.exists_cons
  have hlength := Document.Builds.length_eq hbuilds
  cases h with
  | keep hblocks _ hopen => exact ⟨_, .keep _, hbuilds.congr hblocks hopen⟩
  | comment text => exact ⟨_, .push f fs _, State.addComment_builds hbuilds text⟩
  | lineAt rule => exact ⟨_, .push f fs _, State.addLineAt_builds hbuilds rule⟩
  | declare property value _ hopen =>
    cases fs with
    | cons g fs => exact ⟨_, .declare f g fs _ _, State.addDeclaration_builds hbuilds property value⟩
    | nil => exact absurd (by simpa using hlength) hopen
  | openAtBlock body => exact ⟨_, .enter f fs _ _, State.openAtBlock_builds hbuilds body⟩
  | openSelector =>
    cases hearlier : State.earlierSelector? o s.document s.current (s.selectorName o) with
    | none => exact ⟨_, .enter f fs _ _, State.openSelector_builds_new hbuilds hearlier⟩
    | some id =>
      obtain ⟨left, fragments, ds, children, right, hbefore, hagain⟩ :=
        State.openSelector_builds_again hbuilds hearlier
      exact ⟨_, .reopen fs hbefore (Document.Builds.after_eq hbuilds), hagain⟩
  | closeBlock =>
    cases fs with
    | cons g fs => exact ⟨_, .close f g fs, State.closeBlock_builds hbuilds⟩
    | nil =>
      -- only the root is open, and it stays so
      have hopen : s.openBlocks = [] := by simpa using hlength
      refine ⟨_, .keep _, hbuilds.congr (t := s.closeBlock o) ?_ ?_⟩ <;> simp [State.closeBlock, hopen]

/-- What every change of the frames keeps is kept by edits. -/
theorem Edits.grow {s s' : State} (h : Edits o Allowed s s') {P : List Frame → Prop}
    (hstep : ∀ fs fs', Frame.Step fs fs' → P fs → P fs') (hs : ∃ frames, s.Builds frames ∧ P frames) :
    ∃ frames, s'.Builds frames ∧ P frames := by
  induction h with
  | refl => exact hs
  | tail _ hedit ih =>
    obtain ⟨frames, hbuilds, hframes⟩ := ih
    obtain ⟨frames', hgrows, hbuilds'⟩ := hedit.step hbuilds
    exact ⟨frames', hbuilds', hstep _ _ hgrows hframes⟩

/-- An edit leaves a tree with an open path. -/
theorem Edit.builds {s s' : State} (h : Edit o Allowed s s') (hbuilds : ∃ frames, s.Builds frames) :
    ∃ frames, s'.Builds frames := by
  obtain ⟨frames, hbuilds⟩ := hbuilds
  obtain ⟨frames', -, hbuilds'⟩ := h.step hbuilds
  exact ⟨frames', hbuilds'⟩

theorem Edits.builds {s s' : State} (h : Edits o Allowed s s') (hbuilds : ∃ frames, s.Builds frames) :
    ∃ frames, s'.Builds frames := by
  simpa using h.grow (P := fun _ => True) (fun _ _ _ _ => trivial) (by simpa using hbuilds)

/-- **The open blocks are a path of the tree** in front of every step. -/
theorem after_builds (o : Options) (css : String) (n : Nat) : ∃ frames, (after o css n).state.Builds frames := by
  refine after_induction (P := fun r => ∃ frames, r.state.Builds frames) ⟨_, Document.empty_builds⟩ ?_ n
  intro r _ h
  have hedits : Edits o (fun _ => True) r.state (r.next o).state := next_edits fun _ _ _ => trivial
  exact hedits.builds h

/-- **The table of what has been read** holds the tree below the root and nothing else. -/
theorem read_plants (o : Options) (css : String) : ∃ ts, (Document.read o css).1.Plants ts ∧ Twig.lostOf ts = [] := by
  obtain ⟨frames, hbuilds, hrooted⟩ := (run_finish_edits (o := o) (start css)).grow (fun _ _ hstep => hstep.rooted)
    ⟨_, Document.empty_builds, rfl⟩
  obtain ⟨f, fs, rfl⟩ := hbuilds.exists_cons
  exact Document.Builds.plants hbuilds hrooted

end Reader

end Stylesheet
