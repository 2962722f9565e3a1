import Stylesheet.Files.Tree
import Stylesheet.Import.Rule
import Stylesheet.Log

/-!
# Inlining imports

An import rule is replaced by the text of the file it names, in which imports have been inlined before. Rules
stay as they are if they name media or something that is not a file, or if the file cannot be read. A rule is
dropped if its file is one of those that are being inlined just then.

That last rule also bounds the work: each file on the way from the first text to an imported one is another
one, so there are fewer left to import at every step.
-/

namespace Stylesheet.Import

/-- What becomes of an import rule. -/
inductive Fate where
  /-- It stays as it is, for a reason that is reported. -/
  | keep (reason : String)
  /-- It is left out, for a reason that is reported. -/
  | drop (reason : String)
  /-- It is replaced by the text of the file at a path. -/
  | expand (path : String) (names : Names) (text : String)

/-- What becomes of a rule that leads to a place. -/
def fateAt (t : FileTree) (visiting : List Names) (target path : String) (place : Place) : Fate :=
  match place with
  | .inside names =>
    if names ∈ visiting then .drop s!"Dropped circular @import of {target}"
    else
      match t.readAt (.inside names) with
      | .error e =>
        let why := e.message
        .keep s!"Could not read @import of {target}: {why}"
      | .ok text => .expand path names text
  | _ =>
    let why := FileError.isDirectory.message
    .keep s!"Could not read @import of {target}: {why}"

/-- What becomes of a rule in a text that belongs to a directory, while the files at some places are being
inlined. -/
def fate (t : FileTree) (visiting : List Names) (dir : String) (r : Rule) : Fate :=
  let target := r.target
  let media := r.media
  if !media.isEmpty then .keep s!"Kept @import of {target} with media list \"{media}\""
  else if isRemote target then .keep s!"Kept remote @import of {target}"
  else
    match t.locate (Path.join dir target) with
    | .error e =>
      let why := e.message
      .keep s!"Could not read @import of {target}: {why}"
    | .ok place => fateAt t visiting target (Path.join dir target) place

/-- How many files are not being inlined. -/
def unvisited (t : FileTree) (visiting : List Names) : Nat :=
  (t.places.filter fun names => !visiting.contains names).length

/-- A file whose contents can be read is one of the tree. -/
theorem mem_places_of_readAt {t : FileTree} {names : Names} {text : String}
    (h : t.readAt (.inside names) = .ok text) : names ∈ t.places := by
  have lookup : ∀ (fs : List (Names × ByteArray)) (b : ByteArray), fs.lookup names = some b →
      names ∈ fs.map (·.1) := by
    intro fs b hb
    induction fs with
    | nil => simp at hb
    | cons f fs ih =>
      rw [List.lookup_cons] at hb
      by_cases hf : names == f.1
      · exact List.mem_cons.2 (.inl (eq_of_beq hf))
      · simp only [hf] at hb
        exact List.mem_cons.2 (.inr (ih hb))
  rw [FileTree.readAt] at h
  split at h
  · cases h
  · next bytes hb => exact lookup t.files bytes hb

/-- A rule is replaced only by a file that is not being inlined. -/
theorem fate_expand {t : FileTree} {visiting : List Names} {dir : String} {r : Rule} {path : String}
    {names : Names} {text : String} (h : fate t visiting dir r = .expand path names text) :
    names ∈ t.places ∧ names ∉ visiting := by
  unfold fate at h
  simp only [] at h
  split at h
  · cases h
  split at h
  · cases h
  split at h
  · cases h
  · next place _ =>
    unfold fateAt at h
    split at h
    · split at h
      · cases h
      · next hv =>
        split at h
        · cases h
        · next ht =>
          cases h
          exact ⟨mem_places_of_readAt ht, hv⟩
    · cases h

/-- One more file that is being inlined leaves fewer others. -/
theorem unvisited_cons_lt {t : FileTree} {visiting : List Names} {names : Names}
    (hp : names ∈ t.places) (hv : names ∉ visiting) :
    unvisited t (names :: visiting) < unvisited t visiting := by
  have filtered : (t.places.filter fun n => !(names :: visiting).contains n) =
      (t.places.filter fun n => !visiting.contains n).filter fun n => n != names := by
    rw [List.filter_filter]
    congr 1
    funext n
    simp only [List.contains_cons, bne]
    cases n == names <;> simp
  unfold unvisited
  rw [filtered, List.length_filter_lt_length_iff_exists]
  exact ⟨names, List.mem_filter.2 ⟨hp, by simpa using hv⟩, by simp⟩

/-- The text with imports inlined and what an observer sees meanwhile. The text belongs to a directory, from
which its targets are given, and the files at some places are being inlined. -/
def inlineFrom (t : FileTree) (visiting : List Names) (dir : String) (css : String) :
    List Char × List Event :=
  (pieces css).foldr (fun piece (rest : List Char × List Event) =>
    match piece with
    | .plain c => (c :: rest.1, rest.2)
    | .rule r =>
      match _h : fate t visiting dir r with
      | .keep reason =>
        (r.source ++ rest.1, .message (.warn .imports r.line reason) :: rest.2)
      | .drop reason => (rest.1, .message (.warn .imports r.line reason) :: rest.2)
      | .expand path names text =>
        let target := r.target
        let inner := inlineFrom t (names :: visiting) (Path.parent path) text
        (inner.1 ++ rest.1,
          .inlining path :: inner.2
            ++ .message (.info .imports r.line s!"Inlined @import of {target}") :: rest.2))
    ([], [])
termination_by unvisited t visiting
decreasing_by
  obtain ⟨hp, hv⟩ := fate_expand (by assumption)
  exact unvisited_cons_lt hp hv

/-- The text with imports inlined and what an observer sees meanwhile. Targets are given from a directory. -/
def inline (t : FileTree) (dir css : String) : String × List Event :=
  let (text, events) := inlineFrom t [] dir css
  (String.ofList text, events)

end Stylesheet.Import
