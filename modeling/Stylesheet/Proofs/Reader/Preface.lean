import Stylesheet.Proofs.Reader.Discipline
import Stylesheet.Proofs.Reader.Stream

/-!
# Documents with a preface

A stylesheet may be read behind another one. Its document then holds what was read before in front of everything else:
nodes in front of those of the root, tokens in front of the stream, and the rules about the document as a whole. Such a
`Preface` is never looked at again where the source is kept. `Preface.Extends` says that a document is another one with
a preface, while both are being read, and the lemmas here say that whatever the reader does to both of them leaves it
that way.
-/

namespace Stylesheet

open List

namespace Frame

/-! ## Frames with nodes in front -/

/-- The same open blocks, but for some nodes in front of everything else in the root. -/
inductive Preceded (front : List Node) : List Frame → List Frame → Prop
  | root {f g : Frame} (hbefore : f.before = front ++ g.before) (hafter : f.after = g.after) :
      Preceded front [f] [g]
  | inside (f : Frame) {fs gs : List Frame} (h : Preceded front fs gs) : Preceded front (f :: fs) (f :: gs)

namespace Preceded

variable {front : List Node} {f f' g g' : Frame} {fs gs : List Frame}

theorem exists_cons (h : Preceded front fs gs) : ∃ f fs' g gs', fs = f :: fs' ∧ gs = g :: gs' := by
  cases h with
  | root => exact ⟨_, _, _, _, rfl, rfl⟩
  | inside => exact ⟨_, _, _, _, rfl, rfl⟩

theorem length_eq (h : Preceded front fs gs) : fs.length = gs.length := by
  induction h with
  | root => rfl
  | inside f _ ih => rw [length_cons, length_cons, ih]

theorem push (h : Preceded front (f :: fs) (g :: gs)) (n : Node) :
    Preceded front (f.push n :: fs) (g.push n :: gs) := by
  cases h with
  | root hbefore hafter =>
    refine .root ?_ hafter
    simp only [Frame.push, hbefore, append_assoc]
  | inside _ h => exact .inside _ h

theorem declare (h : Preceded front (f :: fs) (g :: gs)) (property : String) (value : Value) :
    Preceded front (f.declare property value :: fs) (g.declare property value :: gs) := by
  cases h with
  | root hbefore hafter => exact .root hbefore hafter
  | inside _ h => exact .inside _ h

/-- A block inside another one is the same in both. -/
theorem inner_eq (h : Preceded front (f :: f' :: fs) (g :: g' :: gs)) :
    f = g ∧ Preceded front (f' :: fs) (g' :: gs) := by
  cases h with
  | inside _ h => exact ⟨rfl, h⟩

theorem close (h : Preceded front (f :: f' :: fs) (g :: g' :: gs)) :
    Preceded front (f.close f' :: fs) (g.close g' :: gs) := by
  obtain ⟨rfl, houter⟩ := h.inner_eq
  cases houter with
  | root hbefore hafter =>
    refine .root ?_ rfl
    simp only [Frame.close, hbefore, hafter, append_assoc]
  | inside _ houter => exact .inside _ houter

/-- Once all blocks are closed, the nodes stand in front of the tree. -/
theorem before_closeAll (h : Preceded front (f :: fs) (g :: gs)) :
    (f.closeAll fs).before = front ++ (g.closeAll gs).before := by
  induction fs generalizing f g gs with
  | nil =>
    cases h with
    | root hbefore _ => exact hbefore
    | inside _ h => cases h
  | cons f' fs ih =>
    cases gs with
    | nil =>
      have hlength := h.length_eq
      simp at hlength
    | cons g' gs =>
      show ((f.close f').closeAll fs).before = front ++ ((g.close g').closeAll gs).before
      exact ih h.close

end Preceded

end Frame

/-! ## Documents with a preface -/

/-- What has been read of a stylesheet, once all its blocks are closed. -/
structure Preface where
  nodes : List Node := []
  tokens : List Token := []
  charset : Option String := none
  namespaces : List String := []
  imports : List LineAt := []

/-- What a document puts in front of one that is read behind it. -/
def Document.preface (d : Document) : Preface :=
  { nodes := d.tree, tokens := d.tokens, charset := d.charset, namespaces := d.namespaces, imports := d.imports }

/-- The first document, with its open blocks, is the second one with a preface. -/
structure Preface.Extends (p : Preface) (d : Document) (path : List BlockId) (d' : Document)
    (path' : List BlockId) : Prop where
  builds : ∃ fs gs, Frame.Preceded p.nodes fs gs ∧ d.Builds path fs ∧ d'.Builds path' gs
  tokens : d.tokens = p.tokens ++ d'.tokens
  charset : d.charset = p.charset.or d'.charset
  namespaces : d.namespaces = p.namespaces ++ d'.namespaces
  imports : d.imports = p.imports ++ d'.imports

namespace Preface.Extends

variable {p : Preface} {d d' e e' : Document} {path path' : List BlockId}

section

variable (h : p.Extends d path d' path')
include h

/-- As many blocks are open in one document as in the other. -/
theorem isEmpty_eq : path.isEmpty = path'.isEmpty := by
  obtain ⟨fs, gs, hpreceded, hbuilds, hbuilds'⟩ := h.builds
  have hlength : path.length + 1 = path'.length + 1 := by
    rw [← hbuilds.length_eq, ← hbuilds'.length_eq, hpreceded.length_eq]
  rw [Bool.eq_iff_iff, isEmpty_iff_length_eq_zero, isEmpty_iff_length_eq_zero]
  omega

/-- The tree of the document starts with the nodes of the preface. -/
theorem tree_eq : d.tree = p.nodes ++ d'.tree := by
  obtain ⟨fs, gs, hpreceded, hbuilds, hbuilds'⟩ := h.builds
  obtain ⟨f, fs, g, gs, rfl, rfl⟩ := hpreceded.exists_cons
  rw [hbuilds.tree_eq, hbuilds'.tree_eq, hpreceded.before_closeAll]

/-- The same change of both trees, with the same tokens for it. -/
theorem edit {epath epath' : List BlockId}
    (hbuilds : ∃ fs gs, Frame.Preceded p.nodes fs gs ∧ e.Builds epath fs ∧ e'.Builds epath' gs) {new : List Token}
    (htokens : e.tokens = d.tokens ++ new) (htokens' : e'.tokens = d'.tokens ++ new) (hheader : e.header = d.header)
    (hheader' : e'.header = d'.header) : p.Extends e epath e' epath' := by
  simp only [Document.header, Prod.mk.injEq] at hheader hheader'
  refine ⟨hbuilds, ?_, ?_, ?_, ?_⟩
  · rw [htokens, htokens', h.tokens, append_assoc]
  · rw [hheader.1, hheader'.1, h.charset]
  · rw [hheader.2.1, hheader'.2.1, h.namespaces]
  · rw [hheader.2.2, hheader'.2.2, h.imports]

/-- The same change of both headers. -/
theorem withHeader (hblocks : e.blocks = d.blocks)
    (hblocks' : e'.blocks = d'.blocks) (htokens : e.tokens = d.tokens) (htokens' : e'.tokens = d'.tokens)
    (hcharset : e.charset = p.charset.or e'.charset) (hnamespaces : e.namespaces = p.namespaces ++ e'.namespaces)
    (himports : e.imports = p.imports ++ e'.imports) : p.Extends e path e' path' := by
  obtain ⟨fs, gs, hpreceded, hbuilds, hbuilds'⟩ := h.builds
  refine ⟨⟨fs, gs, hpreceded, hbuilds.congr hblocks, hbuilds'.congr hblocks'⟩, ?_, hcharset, hnamespaces, himports⟩
  rw [htokens, htokens', h.tokens]

end

end Preface.Extends

namespace Reader

variable {o : Options} {p : Preface} {s t : State}

/-! ## Changes of both documents -/

/-- The document of a state is that of another one with a preface. -/
abbrev Extending (p : Preface) (s t : State) : Prop :=
  p.Extends s.document s.openBlocks t.document t.openBlocks

namespace Extending

open State

section

variable (ho : o.preserveCss = true)
include ho

section

variable (h : Extending p s t)
include h

theorem addComment (text : List Char) : Extending p (s.addComment o text) (t.addComment o text) := by
  obtain ⟨fs, gs, hpreceded, hbuilds, hbuilds'⟩ := h.builds
  obtain ⟨f, fs, g, gs, rfl, rfl⟩ := hpreceded.exists_cons
  exact h.edit ⟨_, _, hpreceded.push _, addComment_builds hbuilds text, addComment_builds hbuilds' text⟩
    (tokens_addComment ho s text) (tokens_addComment ho t text) (header_addComment s text) (header_addComment t text)

theorem addLineAt (rule : LineAt) : Extending p (s.addLineAt o rule) (t.addLineAt o rule) := by
  obtain ⟨fs, gs, hpreceded, hbuilds, hbuilds'⟩ := h.builds
  obtain ⟨f, fs, g, gs, rfl, rfl⟩ := hpreceded.exists_cons
  exact h.edit ⟨_, _, hpreceded.push _, addLineAt_builds hbuilds rule, addLineAt_builds hbuilds' rule⟩
    (tokens_addLineAt ho s rule) (tokens_addLineAt ho t rule) (header_addLineAt s rule) (header_addLineAt t rule)

theorem addDeclaration (property : String) (value : Value) :
    Extending p (s.addDeclaration o property value) (t.addDeclaration o property value) := by
  obtain ⟨fs, gs, hpreceded, hbuilds, hbuilds'⟩ := h.builds
  obtain ⟨f, fs, g, gs, rfl, rfl⟩ := hpreceded.exists_cons
  have htokens := tokens_addDeclaration ho s property value
  have htokens' := tokens_addDeclaration ho t property value
  rw [append_assoc] at htokens htokens'
  exact h.edit ⟨_, _, hpreceded.declare property value, addDeclaration_builds hbuilds property value,
    addDeclaration_builds hbuilds' property value⟩ htokens htokens' (header_addDeclaration s property value)
    (header_addDeclaration t property value)

theorem openSelector (hselector : s.selector = t.selector) : Extending p (s.openSelector o) (t.openSelector o) := by
  have hname : s.selectorName o = t.selectorName o := by rw [selectorName, hselector, selectorName]
  obtain ⟨fs, gs, hpreceded, hbuilds, hbuilds'⟩ := h.builds
  obtain ⟨f, fs, g, gs, rfl, rfl⟩ := hpreceded.exists_cons
  have hnew := openSelector_builds_new hbuilds (earlierSelector?_of_preserve ho _ _ _)
  have hnew' := openSelector_builds_new hbuilds' (earlierSelector?_of_preserve ho _ _ _)
  have htokens := tokens_openSelector ho s
  rw [hname] at hnew htokens
  exact h.edit ⟨_, _, .inside _ hpreceded, hnew, hnew'⟩ htokens (tokens_openSelector ho t) (header_openSelector s)
    (header_openSelector t)

theorem openAtBlock (hparts : s.flushPart.parts = t.flushPart.parts) (body body' : List Char) :
    Extending p (s.openAtBlock o body) (t.openAtBlock o body') := by
  obtain ⟨fs, gs, hpreceded, hbuilds, hbuilds'⟩ := h.builds
  obtain ⟨f, fs, g, gs, rfl, rfl⟩ := hpreceded.exists_cons
  have hnew := openAtBlock_builds (o := o) hbuilds body
  have htokens := tokens_openAtBlock ho s body
  rw [hparts] at hnew htokens
  exact h.edit ⟨_, _, .inside _ hpreceded, hnew, openAtBlock_builds hbuilds' body'⟩ htokens
    (tokens_openAtBlock ho t body') (header_openAtBlock s body) (header_openAtBlock t body')

theorem closeBlock : Extending p (s.closeBlock o) (t.closeBlock o) := by
  have hempty := h.isEmpty_eq
  obtain ⟨fs, gs, hpreceded, hbuilds, hbuilds'⟩ := h.builds
  obtain ⟨f, fs, g, gs, rfl, rfl⟩ := hpreceded.exists_cons
  cases hopen' : t.openBlocks with
  | nil =>
    -- only the root is open, and it stays so
    have hopen : s.openBlocks = [] := by simpa [hopen'] using hempty
    have hclose : s.closeBlock o = s := by rw [State.closeBlock, hopen]
    have hclose' : t.closeBlock o = t := by rw [State.closeBlock, hopen']
    rw [hclose, hclose']
    exact h
  | cons id path =>
    have hopen : s.openBlocks ≠ [] := by
      intro hnil
      simp [hnil, hopen'] at hempty
    have hlength := Document.Builds.length_eq hbuilds
    have hlength' := Document.Builds.length_eq hbuilds'
    cases fs with
    | nil => exact absurd (eq_nil_of_length_eq_zero (by simpa using hlength.symm)) hopen
    | cons f' fs =>
      cases gs with
      | nil => simp [hopen'] at hlength'
      | cons g' gs =>
        have htokens := tokens_closeBlock ho hopen
        have htokens' := tokens_closeBlock ho (s := t) (by rw [hopen']; exact cons_ne_nil _ _)
        rw [isSelector_current hbuilds, hpreceded.inner_eq.1] at htokens
        rw [isSelector_current hbuilds'] at htokens'
        exact h.edit ⟨_, _, hpreceded.close, closeBlock_builds hbuilds, closeBlock_builds hbuilds'⟩ htokens
          htokens' (header_closeBlock s) (header_closeBlock t)

end

end

end Extending

/-! ## Changes of both headers -/

theorem addCharset_document (s : State) (value : String) :
    (s.addCharset value).openBlocks = s.openBlocks ∧ (s.addCharset value).document
      = { s.document with charset := s.document.charset.or (some value) } := by
  unfold State.addCharset
  cases hcharset : s.document.charset with
  | none =>
    simp only [Option.isSome_none, Bool.false_eq_true, if_false]
    split <;> exact ⟨rfl, rfl⟩
  | some charset =>
    rw [if_pos Option.isSome_some, Option.some_or, ← hcharset]
    exact ⟨rfl, rfl⟩

theorem addNamespace_document (s : State) (value : String) :
    (s.addNamespace value).openBlocks = s.openBlocks ∧ (s.addNamespace value).document
      = { s.document with namespaces := s.document.namespaces ++ [value] } := by
  unfold State.addNamespace
  simp only
  split <;> exact ⟨rfl, rfl⟩

theorem addImport_document (s : State) (value : String) :
    (s.addImport value).openBlocks = s.openBlocks ∧ (s.addImport value).document
      = { s.document with imports := s.document.imports ++ [⟨"import", value⟩] } := by
  unfold State.addImport
  simp only
  split
  · exact ⟨rfl, rfl⟩
  · split <;> exact ⟨rfl, rfl⟩

namespace Extending

/-- The first character set counts, which is that of the preface if it has one. -/
theorem addCharset (h : Extending p s t) (value : String) : Extending p (s.addCharset value) (t.addCharset value) := by
  obtain ⟨hopen, hdocument⟩ := addCharset_document s value
  obtain ⟨hopen', hdocument'⟩ := addCharset_document t value
  rw [Extending, hopen, hopen', hdocument, hdocument']
  refine h.withHeader rfl rfl rfl rfl ?_ h.namespaces h.imports
  rw [h.charset, Option.or_assoc]

theorem addNamespace (h : Extending p s t) (value : String) :
    Extending p (s.addNamespace value) (t.addNamespace value) := by
  obtain ⟨hopen, hdocument⟩ := addNamespace_document s value
  obtain ⟨hopen', hdocument'⟩ := addNamespace_document t value
  rw [Extending, hopen, hopen', hdocument, hdocument']
  refine h.withHeader rfl rfl rfl rfl h.charset ?_ h.imports
  rw [h.namespaces, append_assoc]

theorem addImport (h : Extending p s t) (value : String) : Extending p (s.addImport value) (t.addImport value) := by
  obtain ⟨hopen, hdocument⟩ := addImport_document s value
  obtain ⟨hopen', hdocument'⟩ := addImport_document t value
  rw [Extending, hopen, hopen', hdocument, hdocument']
  refine h.withHeader rfl rfl rfl rfl h.charset h.namespaces ?_
  rw [h.imports, append_assoc]

/-- A rule without a body goes to the same place of both documents. -/
theorem addAtRule (ho : o.preserveCss = true) (h : Extending p s t) (hparts : s.parts = t.parts) :
    Extending p (s.addAtRule o) (t.addAtRule o) := by
  unfold State.addAtRule
  rw [hparts]
  cases t.parts with
  | nil => exact h
  | cons name rest =>
    simp only
    generalize Value.joinParts rest = value
    generalize Text.lower name = key
    split
    · exact h.addCharset value
    · exact h.addNamespace value
    · exact h.addImport value
    · exact h.addLineAt ho _

end Extending

end Reader

end Stylesheet
