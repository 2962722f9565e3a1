import Stylesheet.Import.Inline
import Stylesheet.Layout
import Stylesheet.Reader.Run
import Stylesheet.Selector.Arrange
import Stylesheet.Shorthand.Block

/-!
# Tidying stylesheets

A stylesheet is read, its shorthands are put together, its selectors are arranged, and the blocks that took
over declarations are tidied once more. Where the layout of the source is kept, reading is all that is done.
What comes out can be written; a document with nothing to write is an error.
-/

namespace Stylesheet

/-- Why there is no result. -/
inductive TidyError where
  | emptyDocument
  /-- The file at a path cannot be read. -/
  | unreadable (path : String) (cause : FileError)
deriving DecidableEq, Repr

/-- The error in words. -/
def TidyError.message : TidyError → String
  | emptyDocument => "input produced an empty document"
  | unreadable path cause =>
    let why := cause.message
    s!"failed to read {path}: {why}"

/-! ## The passes -/

/-- Tidies the declarations of one block, if it is there. -/
def Document.tidyBlock (level : ShorthandLevel) (d : Document) (id : BlockId) :
    Document × List Message :=
  match d.get? id with
  | none => (d, [])
  | some b =>
    let (ds, log) := Shorthand.tidyBlock level b.declarations
    (d.modify id fun b => { b with declarations := ds }, log)

/-- Tidies the declarations of blocks, in order. -/
def Document.tidyBlocks (level : ShorthandLevel) : Document → List BlockId → Document × List Message
  | d, [] => (d, [])
  | d, id :: rest =>
    let (d, log) := d.tidyBlock level id
    let (d, more) := Document.tidyBlocks level d rest
    (d, log ++ more)

/-- Tidies the declarations of all blocks of the tree. -/
def Document.tidyShorthands (level : ShorthandLevel) (d : Document) : Document × List Message :=
  d.tidyBlocks level d.walk

/-- Everything that is done to a document between reading and writing. -/
def Document.improve (o : Options) (d : Document) : Document × List Message :=
  let (d, shorthands) := d.tidyShorthands o.optimiseShorthands
  let a := Selector.arrange o.mergeSelectors o.discardInvalidSelectors d
  let (d, again) := a.document.tidyBlocks o.optimiseShorthands a.merged
  (d, shorthands ++ a.log ++ again)

/-! ## Runs -/

/-- What a run comes to. -/
structure Outcome where
  /-- What an observer of the run sees. -/
  events : List Event
  result : Except TidyError Document

/-- The messages of a run. -/
def Outcome.log (r : Outcome) : Log := ⟨r.events.filterMap Event.message?⟩

/-- The document of a stylesheet before it is checked for being empty, with the messages about it. -/
def tidied (o : Options) (css : String) : Document × List Message :=
  let (d, read) := Document.read o css
  if o.preserveCss then (d, read)
  else
    let (d, improved) := d.improve o
    (d, read ++ improved)

/-- Tidies a stylesheet. -/
def tidy (o : Options) (css : String) : Outcome :=
  let (d, log) := tidied o css
  { events := .processing css.utf8ByteSize :: log.map .message
    result := if d.isEmpty then .error .emptyDocument else .ok d }

/-- Tidies the stylesheet at a path, with its imports inlined. -/
def tidyFile (t : FileTree) (o : Options) (path : String) : Outcome :=
  match t.read path with
  | .error e => { events := [], result := .error (.unreadable path e) }
  | .ok source =>
    let (css, events) := Import.inline t (Path.parent path) source
    let r := tidy o css
    { r with events := events ++ r.events }

end Stylesheet
