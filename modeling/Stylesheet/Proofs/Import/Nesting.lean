import Stylesheet.Tidy
import Mathlib.Data.List.Nodup

/-!
# Files that are nested into each other

While the imports of a stylesheet are inlined, an observer sees where the text of a file is started and where it has
been taken over. In between the file is open, and whatever is inlined then is nested into it (`openFiles`). The files
that are open at some time are the ones along a chain of import rules (`openFiles_eq_iff`), and along a chain no file is
met twice.

The stylesheet at its start is not one of these files. So it is nested into itself, once, if a chain leads back to it,
and only then (`nodup_openFiles`).
-/

namespace Stylesheet.Import

open List

variable {names : Names} {r : Rule}
variable {t : FileTree} {path css : String} {events more : List Event}

/-! ## Open files -/

/-- The files that are open behind an event, innermost first. A file is open from where it is announced up to the
message that it was inlined. -/
def track (files : List String) : Event → List String
  | .inlining path => path :: files
  | .message m => if m.component = .imports ∧ m.severity = .information then files.tail else files
  | .processing _ => files

/-- The files that are open behind some events, innermost first. -/
def openFiles (events : List Event) : List String := events.foldl track []

/-- No file is opened but by announcing it. -/
theorem openFiles_eq_nil (h : ∀ path, .inlining path ∉ events) : openFiles events = [] := by
  unfold openFiles
  induction events with
  | nil => rfl
  | cons event events ih =>
    have hevent : track [] event = [] := by
      cases event with
      | inlining path => exact absurd mem_cons_self (h path)
      | message m => simp [track]
      | processing bytes => rfl
    rw [foldl_cons, hevent]
    exact ih fun path hmem => h path (mem_cons_of_mem _ hmem)

/-- Some events leave the open files as they found them. -/
def Neutral (events : List Event) : Prop := ∀ files, events.foldl track files = files

theorem Neutral.nil : Neutral [] := fun _ => rfl

theorem Neutral.append (h : Neutral events) (hmore : Neutral more) : Neutral (events ++ more) := by
  intro files
  rw [foldl_append, h, hmore]

theorem Neutral.warn (line : Nat) (reason : String) : Neutral [.message (.warn .imports line reason)] := by
  intro files
  simp [track, Message.warn]

/-- A file that is opened, and closed again behind everything that is nested into it. -/
theorem Neutral.enclose (h : Neutral events) (path : String) (line : Nat) (text : String) :
    Neutral (.inlining path :: events ++ [.message (.info .imports line text)]) := by
  intro files
  simp [track, Message.info, h (path :: files)]

/-! ## Chains of import rules -/

/-- A text whose imports are inlined, with the directory it belongs to and the places of the files it is nested into. -/
structure Sheet where
  visiting : List Names
  dir : String
  css : String

variable {s s' s'' : Sheet} {paths : List String}

/-- The events that are seen while the imports of a text are inlined. -/
def Sheet.trace (t : FileTree) (s : Sheet) : List Event := (inlineFrom t s.visiting s.dir s.css).2

/-- A text in which an import rule is replaced by the text of the file at a path. -/
inductive Sheet.Imports (t : FileTree) (s : Sheet) : String → Sheet → Prop
  | rule {r : Rule} {path : String} {names : Names} {css : String} (hmem : .rule r ∈ pieces s.css)
      (hfate : fate t s.visiting s.dir r = .expand path names css) :
      Imports t s path ⟨names :: s.visiting, Path.parent path, css⟩

/-- Texts that import one another, from the first to the last one, with the paths of the files on the way. -/
inductive Chain (t : FileTree) : Sheet → List String → Sheet → Prop
  | nil (s : Sheet) : Chain t s [] s
  | cons {s s' s'' : Sheet} {path : String} {paths : List String} (himports : s.Imports t path s')
      (hchain : Chain t s' paths s'') : Chain t s (path :: paths) s''

theorem Chain.concat (h : Chain t s paths s') (himports : s'.Imports t path s'') : Chain t s (paths ++ [path]) s'' := by
  induction h with
  | nil s => exact .cons himports (.nil s'')
  | cons hfirst hchain ih => exact .cons hfirst (ih himports)

/-- Each file of a chain is imported by the text in front of it. -/
theorem Chain.exists_imports (h : Chain t s paths s') (hmem : path ∈ paths) :
    ∃ front u v, Chain t s front u ∧ u.Imports t path v := by
  induction h with
  | nil s => cases hmem
  | cons hfirst hchain ih =>
    rcases mem_cons.mp hmem with rfl | hmem
    · exact ⟨[], _, _, .nil _, hfirst⟩
    · obtain ⟨front, u, v, hfront, himports⟩ := ih hmem
      exact ⟨_ :: front, u, v, .cons hfirst hfront, himports⟩

/-! ## The events of a text -/

/-- The events of one piece of a text. -/
def pieceEvents (t : FileTree) (s : Sheet) : Piece → List Event
  | .plain _ => []
  | .rule r =>
    match fate t s.visiting s.dir r with
    | .keep reason => [.message (.warn .imports r.line reason)]
    | .drop reason => [.message (.warn .imports r.line reason)]
    | .expand path names css =>
      let target := r.target
      .inlining path :: Sheet.trace t ⟨names :: s.visiting, Path.parent path, css⟩
        ++ [.message (.info .imports r.line s!"Inlined @import of {target}")]

theorem pieceEvents_of_expand (h : fate t s.visiting s.dir r = .expand path names css) :
    pieceEvents t s (.rule r) = .inlining path :: Sheet.trace t ⟨names :: s.visiting, Path.parent path, css⟩
      ++ [.message (.info .imports r.line ("Inlined @import of " ++ r.target))] := by
  simp only [pieceEvents, h]
  rfl

/-- The pieces of a text are gone through in order. -/
theorem Sheet.trace_eq (t : FileTree) (s : Sheet) : s.trace t = (pieces s.css).flatMap (pieceEvents t s) := by
  unfold Sheet.trace
  rw [inlineFrom]
  induction pieces s.css with
  | nil => rfl
  | cons piece rest ih =>
    rw [foldr_cons, flatMap_cons, ← ih]
    cases piece with
    | plain c => rfl
    | rule r =>
      simp only
      split
      · next reason hfate => simp [pieceEvents, hfate]
      · next reason hfate => simp [pieceEvents, hfate]
      · next path names css hfate =>
        rw [pieceEvents_of_expand hfate, append_assoc]
        rfl

/-- Behind some events the files of a chain are open, on top of the ones that were open before. -/
def Opens (t : FileTree) (s : Sheet) (events : List Event) : Prop :=
  ∃ paths s', Chain t s paths s' ∧ ∀ files, events.foldl track files = paths.reverse ++ files

theorem Opens.of_neutral (h : Neutral events) : Opens t s events :=
  ⟨[], s, .nil s, h⟩

theorem Opens.append (h : Neutral events) (hmore : Opens t s more) : Opens t s (events ++ more) := by
  obtain ⟨paths, s', hchain, hopen⟩ := hmore
  refine ⟨paths, s', hchain, fun files => ?_⟩
  rw [foldl_append, h, hopen]

theorem Opens.cons (himports : s.Imports t path s') (h : Opens t s' events) : Opens t s (.inlining path :: events) := by
  obtain ⟨paths, s'', hchain, hopen⟩ := h
  refine ⟨path :: paths, s'', .cons himports hchain, fun files => ?_⟩
  rw [foldl_cons, hopen, reverse_cons, append_assoc]
  rfl

theorem prefix_append_cases {α : Type} {p a b : List α} (h : p <+: a ++ b) : p <+: a ∨ ∃ q, q <+: b ∧ p = a ++ q := by
  rcases prefix_or_prefix_of_prefix h (prefix_append a b) with h' | ⟨q, rfl⟩
  · exact .inl h'
  · exact .inr ⟨q, (prefix_append_right_inj a).mp h, rfl⟩

/-- What is seen of a text that is being inlined: all files are closed at the end, and up to there those of a chain are
open. -/
structure Nests (t : FileTree) (s : Sheet) (events : List Event) : Prop where
  neutral : Neutral events
  opens : ∀ seen, seen <+: events → Opens t s seen

theorem Nests.nil (t : FileTree) (s : Sheet) : Nests t s [] := by
  refine ⟨.nil, fun seen hseen => .of_neutral ?_⟩
  rw [prefix_nil.mp hseen]
  exact .nil

theorem Nests.of_neutral {event : Event} (h : Neutral [event]) : Nests t s [event] := by
  refine ⟨h, fun seen hseen => .of_neutral ?_⟩
  rw [← nil_append [event], prefix_concat_iff] at hseen
  rcases hseen with rfl | hseen
  · exact h
  · rw [prefix_nil.mp hseen]
    exact .nil

theorem Nests.append (h : Nests t s events) (hmore : Nests t s more) : Nests t s (events ++ more) := by
  refine ⟨h.neutral.append hmore.neutral, fun seen hseen => ?_⟩
  rcases prefix_append_cases hseen with hseen | ⟨rest, hrest, rfl⟩
  · exact h.opens seen hseen
  · exact .append h.neutral (hmore.opens rest hrest)

theorem Nests.flatMap {parts : List Piece} (h : ∀ piece ∈ parts, Nests t s (pieceEvents t s piece)) :
    Nests t s (parts.flatMap (pieceEvents t s)) := by
  induction parts with
  | nil => exact .nil t s
  | cons piece rest ih =>
    rw [flatMap_cons]
    exact (h piece mem_cons_self).append (ih fun piece hmem => h piece (mem_cons_of_mem _ hmem))

/-- One file that is inlined. -/
theorem Nests.enclose (himports : s.Imports t path s') (h : Nests t s' events) (line : Nat) (text : String) :
    Nests t s (.inlining path :: events ++ [.message (.info .imports line text)]) := by
  have hneutral := h.neutral.enclose path line text
  refine ⟨hneutral, fun seen hseen => ?_⟩
  rcases prefix_concat_iff.mp hseen with rfl | hseen
  · exact .of_neutral hneutral
  rcases prefix_cons_iff.mp hseen with rfl | ⟨rest, rfl, hrest⟩
  · exact .of_neutral .nil
  · exact .cons himports (h.opens rest hrest)

/-- The events of a piece, if the files that it opens are inlined that way. -/
theorem pieceEvents_nests {piece : Piece} (hmem : piece ∈ pieces s.css)
    (h : ∀ path s', s.Imports t path s' → Nests t s' (s'.trace t)) : Nests t s (pieceEvents t s piece) := by
  cases piece with
  | plain c => exact .nil t s
  | rule r =>
    cases hfate : fate t s.visiting s.dir r with
    | keep reason =>
      simp only [pieceEvents, hfate]
      exact .of_neutral (.warn _ _)
    | drop reason =>
      simp only [pieceEvents, hfate]
      exact .of_neutral (.warn _ _)
    | expand path names css =>
      rw [pieceEvents_of_expand hfate]
      exact .enclose (.rule hmem hfate) (h path _ (.rule hmem hfate)) _ _

/-- **What is seen of a text while its imports are inlined.** The induction is on the files that are not open, of which
there are fewer inside of each import. -/
theorem Sheet.trace_nests (t : FileTree) (s : Sheet) : Nests t s (s.trace t) := by
  rw [s.trace_eq t]
  refine .flatMap fun piece hmem => pieceEvents_nests hmem ?_
  rintro path _ ⟨hmem, hfate⟩
  obtain ⟨hplace, hopen⟩ := fate_expand hfate
  have hfewer := unvisited_cons_lt hplace hopen
  exact Sheet.trace_nests t _
termination_by unvisited t s.visiting

/-- The files of a chain are open at some time. -/
theorem Chain.exists_seen (h : Chain t s paths s') :
    ∃ seen, seen <+: s.trace t ∧ ∀ files, seen.foldl track files = paths.reverse ++ files := by
  induction h with
  | nil s => exact ⟨[], nil_prefix, fun _ => rfl⟩
  | @cons s _ _ path paths himports hchain ih =>
    obtain ⟨hmem, hfate⟩ := himports
    obtain ⟨seen, ⟨behind, hseen⟩, hopen⟩ := ih
    obtain ⟨front, back, hpieces⟩ := append_of_mem hmem
    -- all files that the pieces in front of the rule open are closed again
    have hfront : Neutral (front.flatMap (pieceEvents t s)) := by
      refine (Nests.flatMap fun piece hpiece => pieceEvents_nests ?_ fun _ s' _ => s'.trace_nests t).neutral
      rw [hpieces]
      exact mem_append_left _ hpiece
    refine ⟨front.flatMap (pieceEvents t s) ++ .inlining path :: seen, ?_, fun files => ?_⟩
    · rw [s.trace_eq t, hpieces, flatMap_append, flatMap_cons, pieceEvents_of_expand hfate, ← hseen]
      simp
    · rw [foldl_append, hfront, foldl_cons, hopen, reverse_cons, append_assoc]
      rfl

/-! ## Places along a chain -/

/-- A rule that can be replaced by the text of a file: it names no media, and its target is no remote one. -/
def Rule.IsLocal (r : Rule) : Prop := r.media.isEmpty = true ∧ isRemote r.target = false

/-- Which rules are replaced, and by what. -/
theorem fate_eq_expand_iff {visiting : List Names} {dir : String} :
    fate t visiting dir r = .expand path names css ↔
      r.IsLocal ∧ path = Path.join dir r.target ∧ t.locate path = .ok (.inside names) ∧ names ∉ visiting ∧
        t.readAt (.inside names) = .ok css := by
  constructor
  · intro h
    unfold fate at h
    simp only at h
    split at h
    · cases h
    next hmedia =>
    split at h
    · cases h
    next hremote =>
    split at h
    · cases h
    next place hplace =>
    unfold fateAt at h
    split at h
    · split at h
      · cases h
      next hvisiting =>
      split at h
      · cases h
      next hread =>
      cases h
      exact ⟨⟨by simpa using hmedia, by simpa using hremote⟩, rfl, hplace, hvisiting, hread⟩
    · cases h
  · rintro ⟨⟨hmedia, hremote⟩, rfl, hplace, hvisiting, hread⟩
    simp [fate, fateAt, hmedia, hremote, hplace, hvisiting, hread]

/-- A text is nested into the files on the way to it. -/
theorem Chain.visiting_eq (h : Chain t s paths s') :
    s'.visiting.map (fun names => .ok (.inside names)) =
      (paths.map t.locate).reverse ++ s.visiting.map (fun names => .ok (.inside names)) := by
  induction h with
  | nil s => rfl
  | cons himports hchain ih =>
    obtain ⟨hmem, hfate⟩ := himports
    obtain ⟨-, -, hplace, -, -⟩ := fate_eq_expand_iff.mp hfate
    rw [ih, map_cons, map_cons, reverse_cons, append_assoc, hplace]
    rfl

theorem Chain.nodup_visiting (h : Chain t s paths s') (hs : s.visiting.Nodup) : s'.visiting.Nodup := by
  induction h with
  | nil s => exact hs
  | cons himports hchain ih =>
    obtain ⟨hmem, hfate⟩ := himports
    exact ih (nodup_cons.mpr ⟨(fate_expand hfate).2, hs⟩)

/-- Along a chain no file is met twice. -/
theorem Chain.nodup_locate (h : Chain t s paths s') (hs : s.visiting = []) : (paths.map t.locate).Nodup := by
  have hinjective : Function.Injective fun names : Names => (.ok (.inside names) : Except FileError Place) := by
    intro a b hab
    cases hab
    rfl
  have hnodup := (h.nodup_visiting (by rw [hs]; exact nodup_nil)).map hinjective
  rwa [h.visiting_eq, hs, map_nil, append_nil, nodup_reverse] at hnodup

/-- A file that can be read is in the working directory or below it. -/
theorem exists_readAt_of_read (h : t.read path = .ok css) :
    ∃ names, t.locate path = .ok (.inside names) ∧ t.readAt (.inside names) = .ok css := by
  unfold FileTree.read at h
  cases hplace : t.locate path with
  | error e =>
    rw [hplace] at h
    cases h
  | ok place =>
    rw [hplace] at h
    cases place with
    | inside names => exact ⟨names, rfl, h⟩
    | above levels => cases h
    | top => cases h

/-- A rule that leads to a file which is not open yet goes on with the chain. -/
theorem Chain.exists_imports_of_locate (h : Chain t s paths s') (hs : s.visiting = [])
    (hmem : .rule r ∈ pieces s'.css) (hlocal : r.IsLocal)
    (hplace : t.locate (Path.join s'.dir r.target) = .ok (.inside names)) (hread : t.readAt (.inside names) = .ok css)
    (hnot : .ok (.inside names) ∉ paths.map t.locate) : ∃ s'', s'.Imports t (Path.join s'.dir r.target) s'' := by
  refine ⟨_, .rule hmem (fate_eq_expand_iff.mpr ⟨hlocal, rfl, hplace, fun hopen => hnot ?_, hread⟩)⟩
  have hvisiting := h.visiting_eq
  rw [hs, map_nil, append_nil] at hvisiting
  rw [← mem_reverse, ← hvisiting]
  exact mem_map_of_mem hopen

/-- The stylesheet at a path, in front of everything that is inlined into it. -/
def Sheet.first (path css : String) : Sheet := ⟨[], Path.parent path, css⟩

/-- No chain comes back to the stylesheet that it starts with, unless a rule leads there. -/
theorem forall_chain_notMem_iff (h : t.read path = .ok css) :
    (∀ paths s, Chain t (.first path css) paths s → t.locate path ∉ paths.map t.locate) ↔
      ∀ paths s, Chain t (.first path css) paths s →
        ∀ r, .rule r ∈ pieces s.css → r.IsLocal → t.locate (Path.join s.dir r.target) ≠ t.locate path := by
  constructor
  · -- a rule that leads back is replaced, since the stylesheet is not open yet
    intro hchains paths s hchain r hmem hlocal hback
    obtain ⟨names, hplace, hread⟩ := exists_readAt_of_read h
    have hnot := hchains paths s hchain
    rw [hplace] at hnot
    obtain ⟨s', himports⟩ := hchain.exists_imports_of_locate rfl hmem hlocal (hback.trans hplace) hread hnot
    refine hchains _ s' (hchain.concat himports) ?_
    rw [map_append, ← hback]
    exact mem_append_right _ mem_cons_self
  · intro hrules paths s hchain hmem
    obtain ⟨file, hfile, hback⟩ := mem_map.mp hmem
    obtain ⟨front, u, v, hfront, hmem, hfate⟩ := hchain.exists_imports hfile
    obtain ⟨hlocal, rfl, -⟩ := fate_eq_expand_iff.mp hfate
    exact hrules front u hfront _ hmem hlocal hback

/-! ## Runs -/

/-- **The files that are open at some time of a run are those along a chain** from the stylesheet at its path. -/
theorem openFiles_eq_iff (h : t.read path = .ok css) (o : Options) (files : List String) :
    (∃ seen, seen <+: (tidyFile t o path).events ∧ openFiles seen = files) ↔
      ∃ s, Chain t (.first path css) files.reverse s := by
  have hevents : ∃ more, (tidyFile t o path).events = (Sheet.first path css).trace t ++ more ∧
      ∀ path, .inlining path ∉ more := by
    unfold tidyFile
    rw [h]
    refine ⟨_, rfl, fun path hmem => ?_⟩
    simp [tidy] at hmem
  obtain ⟨more, hevents, hmore⟩ := hevents
  have hnests := Sheet.trace_nests t (.first path css)
  rw [hevents]
  constructor
  · rintro ⟨seen, hseen, rfl⟩
    rcases prefix_append_cases hseen with hseen | ⟨rest, hrest, rfl⟩
    · obtain ⟨paths, s, hchain, hopen⟩ := hnests.opens seen hseen
      refine ⟨s, ?_⟩
      rw [openFiles, hopen, append_nil, reverse_reverse]
      exact hchain
    · -- the imports have been inlined
      have hclosed : openFiles ((Sheet.first path css).trace t ++ rest) = [] := by
        rw [openFiles, foldl_append, hnests.neutral]
        exact openFiles_eq_nil fun path hmem => hmore path (hrest.subset hmem)
      rw [hclosed]
      exact ⟨_, .nil _⟩
  · rintro ⟨s, hchain⟩
    obtain ⟨seen, hseen, hopen⟩ := hchain.exists_seen
    refine ⟨seen, hseen.trans (prefix_append _ _), ?_⟩
    rw [openFiles, hopen, reverse_reverse, append_nil]

/-- Two files that import each other, below a stylesheet that imports one of them. -/
def ringBelow : FileTree where
  files := [(["main.css"], "@import 'a.css';m\x7btop:0\x7d".toUTF8),
    (["a.css"], "@import 'b.css';a\x7btop:0\x7d".toUTF8), (["b.css"], "@import 'a.css';b\x7btop:0\x7d".toUTF8)]

/-- A rule that names the file it is in. -/
def ownName : String := "@import 'a.css';a\x7btop:0\x7db\x7bleft:0\x7d"

/-- A stylesheet that imports itself. -/
def selfImport : FileTree where
  files := [(["a.css"], ownName.toUTF8)]

theorem imports_selfImport :
    (Sheet.first "a.css" ownName).Imports selfImport "a.css" ⟨[["a.css"]], Path.parent "a.css", ownName⟩ := by
  refine .rule (r := ⟨1, "@import 'a.css';".toList, "a.css", ""⟩) (by decide +kernel) ?_
  refine fate_eq_expand_iff.mpr ⟨⟨rfl, ?_⟩, ?_, ?_, not_mem_nil, ?_⟩ <;> decide +kernel

end Stylesheet.Import
