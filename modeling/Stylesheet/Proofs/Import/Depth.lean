import Stylesheet.Proofs.Import.Nesting
import Mathlib.Data.Finset.Card
import Mathlib.Data.Finset.Dedup

/-!
# How deep files are nested

`inlineFrom` is given the places of the files that are being inlined, and its recursion ends because there are fewer
others inside of each import. Here the same work is written as it is done: there is one set of places, which a file
enters before its text is gone through and leaves afterwards, and a bound on the depth takes the place of any measure
(`inlineWithin`). A run that needs more depth has no result.

Whatever the bound is, a text that has been gone through leaves the set as it found it, and adds what `inlineFrom` says
(`eq_add_of_inlineWithin`). As many levels as there are files that can be read are enough for every text
(`inlineWithin_card_readable`), so that the work ends on every tree of files, cyclic imports included.
-/

namespace Stylesheet.Import

open List Option

variable {t : FileTree} {path dir css : String} {names : Names} {visiting : List Names}

/-! ## Files that can be read -/

/-- The places of the files that can be read. -/
def readable (t : FileTree) : Finset Names :=
  t.places.toFinset.filter fun names => (t.readAt (.inside names)).isOk

theorem mem_readable (h : t.readAt (.inside names) = .ok css) : names ∈ readable t := by
  rw [readable, Finset.mem_filter, List.mem_toFinset, h]
  exact ⟨mem_places_of_readAt h, rfl⟩

/-- The places of the files that can be read and are not being inlined. -/
def unopened (t : FileTree) (visiting : List Names) : Finset Names := readable t \ visiting.toFinset

@[simp] theorem unopened_nil : unopened t [] = readable t := by
  rw [unopened, toFinset_nil, Finset.sdiff_empty]

/-- A file that is started is one less to be started inside of it. -/
theorem card_unopened_cons (hread : t.readAt (.inside names) = .ok css) (hnot : names ∉ visiting) :
    (unopened t (names :: visiting)).card + 1 = (unopened t visiting).card := by
  have hmem : names ∈ unopened t visiting :=
    Finset.mem_sdiff.mpr ⟨mem_readable hread, fun h => hnot (List.mem_toFinset.mp h)⟩
  have herase : unopened t (names :: visiting) = (unopened t visiting).erase names := by
    rw [unopened, toFinset_cons, Finset.sdiff_insert]
    rfl
  rw [herase]
  exact Finset.card_erase_add_one hmem

/-- Along a chain there are no more files than can be read. -/
theorem Chain.length_add_card_unopened {s s' : Sheet} {paths : List String} (h : Chain t s paths s') :
    paths.length + (unopened t s'.visiting).card = (unopened t s.visiting).card := by
  induction h with
  | nil s => rw [length_nil, Nat.zero_add]
  | cons himports hchain ih =>
    obtain ⟨hmem, hfate⟩ := himports
    obtain ⟨-, -, -, hnot, hread⟩ := fate_eq_expand_iff.mp hfate
    have hone := card_unopened_cons hread hnot
    simp only at ih
    rw [length_cons]
    omega

/-! ## Inlining with one set of places -/

/-- What has been written and seen so far, and the places of the files that are being inlined. -/
structure Progress where
  text : List Char := []
  events : List Event := []
  visiting : List Names := []

namespace Progress

/-- Something is written and seen. -/
def add (p : Progress) (text : List Char) (events : List Event) : Progress :=
  { p with text := p.text ++ text, events := p.events ++ events }

/-- A file is started. -/
def enter (p : Progress) (path : String) (names : Names) : Progress :=
  { p with events := p.events ++ [.inlining path], visiting := p.visiting.insert names }

/-- A file has been gone through, for a rule that named it. -/
def leave (p : Progress) (names : Names) (r : Rule) : Progress :=
  let target := r.target
  { p with
    events := p.events ++ [.message (.info .imports r.line s!"Inlined @import of {target}")]
    visiting := p.visiting.erase names }

variable {p p' : Progress} {text : List Char} {events : List Event}

@[simp] theorem add_visiting : (p.add text events).visiting = p.visiting := rfl

theorem add_nil (p : Progress) : p.add [] [] = p := by
  rw [add, append_nil, append_nil]

theorem add_add (more : List Char) (later : List Event) :
    (p.add text events).add more later = p.add (text ++ more) (events ++ later) := by
  simp only [add, append_assoc]

/-- **A file that was not being inlined is taken out of the set again**, whatever is written and seen in between. -/
theorem leave_enter_add {r : Rule} (hnot : names ∉ p.visiting) :
    ((p.enter path names).add text events).leave names r =
      p.add text (.inlining path :: events ++ [.message (.info .imports r.line ("Inlined @import of " ++ r.target))]) := by
  have hrestored : (p.visiting.insert names).erase names = p.visiting := by
    rw [insert_of_not_mem hnot, erase_cons_head]
  simp only [leave, add, enter, hrestored, append_assoc]
  rfl

end Progress

/-- One piece of a text that belongs to a directory. The text of an imported file is left to `descend`. -/
def advance (descend : String → String → Progress → Option Progress) (t : FileTree) (dir : String)
    (p : Progress) : Piece → Option Progress
  | .plain c => some (p.add [c] [])
  | .rule r =>
    match fate t p.visiting dir r with
    | .keep reason => some (p.add r.source [.message (.warn .imports r.line reason)])
    | .drop reason => some (p.add [] [.message (.warn .imports r.line reason)])
    | .expand path names css =>
      (descend (Path.parent path) css (p.enter path names)).map fun inner => inner.leave names r

/-- Goes through the pieces of a text that belongs to a directory, with files nested into it up to a depth. -/
def inlineWithin (t : FileTree) : Nat → String → String → Progress → Option Progress
  | 0, dir, css, p => (pieces css).foldlM (advance (fun _ _ _ => none) t dir) p
  | depth + 1, dir, css, p => (pieces css).foldlM (advance (inlineWithin t depth) t dir) p

/-! ## What one piece adds -/

variable {descend : String → String → Progress → Option Progress} {p p' : Progress} {piece : Piece} {s : Sheet}

/-- What is written for one piece of a text. -/
def pieceText (t : FileTree) (s : Sheet) : Piece → List Char
  | .plain c => [c]
  | .rule r =>
    match fate t s.visiting s.dir r with
    | .keep _ => r.source
    | .drop _ => []
    | .expand path names css => (inlineFrom t (names :: s.visiting) (Path.parent path) css).1

/-- The pieces of a text are written in order. -/
theorem inlineFrom_fst_eq (t : FileTree) (s : Sheet) :
    (inlineFrom t s.visiting s.dir s.css).1 = (pieces s.css).flatMap (pieceText t s) := by
  rw [inlineFrom]
  induction pieces s.css with
  | nil => rfl
  | cons piece rest ih =>
    rw [foldr_cons, flatMap_cons, ← ih]
    cases piece with
    | plain c => rfl
    | rule r =>
      simp only
      split
      · next reason hfate => simp only [pieceText, hfate]
      · next reason hfate => simp only [pieceText, hfate, nil_append]
      · next path names css hfate => simp only [pieceText, hfate]

/-- `descend` adds to a run what is inlined for a text, and nothing else. -/
def AddsInlined (t : FileTree) (descend : String → String → Progress → Option Progress) : Prop :=
  ∀ dir css p p', descend dir css p = some p' →
    p' = p.add (inlineFrom t p.visiting dir css).1 (inlineFrom t p.visiting dir css).2

theorem eq_add_of_advance (css : String) (hdescend : AddsInlined t descend)
    (h : advance descend t dir p piece = some p') :
    p' = p.add (pieceText t ⟨p.visiting, dir, css⟩ piece) (pieceEvents t ⟨p.visiting, dir, css⟩ piece) := by
  cases piece with
  | plain c => exact (some.inj h).symm
  | rule r =>
    simp only [advance] at h
    split at h
    · next reason hfate =>
      simp only [pieceText, pieceEvents, hfate]
      exact (some.inj h).symm
    · next reason hfate =>
      simp only [pieceText, pieceEvents, hfate]
      exact (some.inj h).symm
    · next path names text hfate =>
      obtain ⟨inner, hinner, rfl⟩ := map_eq_some_iff.mp h
      have hnot := (fate_expand hfate).2
      have hvisiting : (p.enter path names).visiting = names :: p.visiting := insert_of_not_mem hnot
      rw [pieceEvents_of_expand (s := ⟨p.visiting, dir, css⟩) hfate]
      simp only [pieceText, hfate]
      rw [hdescend _ _ _ _ hinner, hvisiting, Progress.leave_enter_add hnot]
      rfl

/-- A run through some pieces. -/
theorem eq_add_of_foldlM (hdescend : AddsInlined t descend) (parts : List Piece)
    (h : parts.foldlM (advance descend t dir) p = some p') :
    p' = p.add (parts.flatMap (pieceText t ⟨p.visiting, dir, css⟩))
      (parts.flatMap (pieceEvents t ⟨p.visiting, dir, css⟩)) := by
  induction parts generalizing p with
  | nil => exact (some.inj h).symm.trans p.add_nil.symm
  | cons piece parts ih =>
    rw [foldlM_cons] at h
    obtain ⟨q, hq, hrest⟩ := bind_eq_some_iff.mp h
    have hstep := eq_add_of_advance css hdescend hq
    have hvisiting : q.visiting = p.visiting := by rw [hstep, Progress.add_visiting]
    rw [ih hrest, hvisiting, hstep, Progress.add_add, flatMap_cons, flatMap_cons]

theorem addsInlined_foldlM (hdescend : AddsInlined t descend) :
    AddsInlined t fun dir css p => (pieces css).foldlM (advance descend t dir) p := by
  intro dir css p p' h
  rw [inlineFrom_fst_eq t ⟨p.visiting, dir, css⟩, show (inlineFrom t p.visiting dir css).2 = _ from
    Sheet.trace_eq t ⟨p.visiting, dir, css⟩]
  exact eq_add_of_foldlM hdescend (pieces css) h

/-- **A text that has been gone through adds what is inlined for it and leaves the set of files as it was.** The
induction is on the depth. -/
theorem addsInlined_inlineWithin (t : FileTree) (depth : Nat) : AddsInlined t (inlineWithin t depth) := by
  induction depth with
  | zero =>
    have hnone : AddsInlined t fun _ _ _ => none := by
      intro dir css p p' h
      cases h
    exact addsInlined_foldlM hnone
  | succ depth ih => exact addsInlined_foldlM ih

/-! ## Enough depth -/

/-- `descend` goes through every text in which fewer files can be started than `bound`. -/
def Reaches (t : FileTree) (bound : Nat) (descend : String → String → Progress → Option Progress) : Prop :=
  ∀ dir css p, (unopened t p.visiting).card < bound → (descend dir css p).isSome

theorem isSome_advance (hdescend : Reaches t (unopened t p.visiting).card descend) (dir : String) (piece : Piece) :
    (advance descend t dir p piece).isSome := by
  cases piece with
  | plain c => rfl
  | rule r =>
    simp only [advance]
    split
    · rfl
    · rfl
    · next path names css hfate =>
      obtain ⟨-, -, -, hnot, hread⟩ := fate_eq_expand_iff.mp hfate
      have hvisiting : (p.enter path names).visiting = names :: p.visiting := insert_of_not_mem hnot
      have hone := card_unopened_cons hread hnot
      rw [isSome_map]
      apply hdescend
      rw [hvisiting]
      omega

theorem isSome_foldlM (hadds : AddsInlined t descend) (hdescend : Reaches t (unopened t p.visiting).card descend)
    (parts : List Piece) : (parts.foldlM (advance descend t dir) p).isSome := by
  induction parts generalizing p with
  | nil => rfl
  | cons piece parts ih =>
    obtain ⟨q, hq⟩ := isSome_iff_exists.mp (isSome_advance hdescend dir piece)
    have hvisiting : q.visiting = p.visiting := by rw [eq_add_of_advance "" hadds hq, Progress.add_visiting]
    rw [foldlM_cons, hq]
    exact ih (by rwa [hvisiting])

/-- Every file that can still be started is a level, and these are enough. The induction is on the depth; without any
no file can be started. -/
theorem reaches_inlineWithin (t : FileTree) (depth : Nat) : Reaches t (depth + 1) (inlineWithin t depth) := by
  induction depth with
  | zero =>
    intro dir css p h
    have hnone : AddsInlined t fun _ _ _ => none := fun _ _ _ _ h => nomatch h
    refine isSome_foldlM hnone ?_ (pieces css)
    intro dir css q hq
    omega
  | succ depth ih =>
    intro dir css p h
    refine isSome_foldlM (addsInlined_inlineWithin t depth) ?_ (pieces css)
    intro dir css q hq
    exact ih dir css q (by omega)

/-- At any time there are no more files open than can be read, and all are at different places. -/
theorem nodup_of_prefix_trace {dir css : String} {seen : List Event} (h : seen <+: Sheet.trace t ⟨[], dir, css⟩) :
    (openFiles seen).length ≤ (readable t).card ∧ ((openFiles seen).map t.locate).Nodup := by
  obtain ⟨paths, s, hchain, hopen⟩ := (Sheet.trace_nests t ⟨[], dir, css⟩).opens seen h
  have hfiles : openFiles seen = paths.reverse := (hopen []).trans (append_nil _)
  have hlength := hchain.length_add_card_unopened
  rw [unopened_nil] at hlength
  rw [hfiles, length_reverse, map_reverse, nodup_reverse]
  exact ⟨by omega, hchain.nodup_locate rfl⟩

-- one file can be read here, and one level is needed for it
example : (readable selfImport).card = 1 ∧ (inlineWithin selfImport 0 "" ownName {}).isNone := by decide +kernel

end Stylesheet.Import
