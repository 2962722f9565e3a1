import Stylesheet.Reader.State
import Stylesheet.Property.Known
import Stylesheet.Text.Lowercase
import Stylesheet.Text.Split
import Stylesheet.Value.Color
import Stylesheet.Value.Join
import Stylesheet.Value.Number

/-!
# What the reader puts into the document

Four constructs end up in the document: comments, blocks with a selector, blocks and lines of at-rules, and
declarations. Each goes into the innermost open block, except the rules about the document as a whole, which
have places of their own.

A selector that repeats the one just before it goes on with that block, unless the layout of the source is to
be kept.
-/

namespace Stylesheet.Reader

namespace State

/-! ## Comments -/

/-- Puts a comment into the current block and counts its lines. -/
def addComment (o : Options) (s : State) (text : List Char) : State :=
  let comment := String.ofList text
  { s with
    line := s.line + text.count '\n'
    document := s.document.pushChild s.current (.comment comment) }.pushToken o .comment comment

/-! ## Selectors -/

/-- The fragments of a selector: the parts between its commas. -/
def fragmentsOf (name : String) : List String :=
  ((Text.split ',' name).map Text.trim).filter fun part => !part.isEmpty

/-- The block is a selector of this name. -/
def isSelectorNamed (d : Document) (name : String) (id : BlockId) : Bool :=
  (d.get? id).any fun b => b.isSelector && b.name == name

/-- The block that a selector goes on with: the one just before it, or any one before it where all are to
be merged. -/
def earlierSelector? (o : Options) (d : Document) (parent : BlockId) (name : String) :
    Option BlockId :=
  if o.preserveCss then none
  else
    let children := ((d.get? parent).map (·.children)).getD []
    let previous := (children.reverse.find? (!·.isComment)).bind Child.blockId?
    match previous.filter (isSelectorNamed d name) with
    | some id => some id
    | none =>
      if o.mergeSelectors = .all then (d.childBlocks parent).find? (isSelectorNamed d name) else none

/-- Opens the block of a selector. -/
def openSelector (o : Options) (s : State) : State :=
  let trimmed := Text.trim s.selector
  let name := if o.lowercaseSelectors then Text.lowercase trimmed else trimmed
  let s := { s with selector := "" }.pushMode .property .selector
  let s :=
    match earlierSelector? o s.document s.current name with
    | some id => { s with openBlocks := id :: s.openBlocks }
    | none =>
      { s with
        document := s.document.addBlock s.current { name, kind := .selector (fragmentsOf name) }
        openBlocks := s.document.fresh :: s.openBlocks }
  s.pushToken o .selectorStart name

/-! ## At-rules -/

/-- The first free colon or opening brace of a text is a colon. -/
def colonFirst : Bool → List Char → Bool
  | _, [] => false
  | escaped, c :: s =>
    if !escaped && c == ':' then true
    else if !escaped && c == '{' then false
    else colonFirst (c == '\\' && !escaped) s

/-- What the body of an at-rule holds: its name tells, or else what comes first in it. -/
def bodyOf (parts : List String) (body : List Char) : Keyword.AtBody :=
  match parts.head?.bind Keyword.atBody? with
  | some kind => kind
  | none => if colonFirst false body then .declarations else .rules

/-- Opens the block of an at-rule, of which `body` is still to be read. -/
def openAtBlock (o : Options) (s : State) (body : List Char) : State :=
  let s := s.flushPart
  let name := "@" ++ Value.joinParts s.parts
  let s := s.pushMode (bodyMode (bodyOf s.parts body)) (bodyMode s.origin)
  let s :=
    { s with
      document := s.document.addBlock s.current { name, kind := .atBlock }
      openBlocks := s.document.fresh :: s.openBlocks
      parts := [] }
  s.pushToken o .atStart name

/-- Some block stands in the document already. -/
def hasBlocks (s : State) : Bool := !(s.document.childBlocks Document.root).isEmpty

/-- Takes note of the character set. The first one counts. -/
def addCharset (s : State) (value : String) : State :=
  if s.document.charset.isSome then
    s.warn "Only one @charset may be in document, later one is ignored"
  else
    let late := s.hasBlocks || !s.document.imports.isEmpty || !s.document.namespaces.isEmpty
    let s := if late then s.warn "@charset must be before anything" else s
    { s with document := { s.document with charset := some value } }

/-- Takes note of a namespace. -/
def addNamespace (s : State) (value : String) : State :=
  let s := if s.hasBlocks then s.warn "@namespace must be before selectors" else s
  { s with document := { s.document with namespaces := s.document.namespaces ++ [value] } }

/-- Takes note of an import. -/
def addImport (s : State) (value : String) : State :=
  let s :=
    if !s.openBlocks.isEmpty then s.warn "@import cannot be inside @media"
    else if s.hasBlocks then s.warn "@import must be before any selectors"
    else s
  { s with document := { s.document with imports := s.document.imports ++ [⟨"import", value⟩] } }

/-- Puts an at-rule without a body into the current block. -/
def addLineAt (o : Options) (s : State) (rule : LineAt) : State :=
  let s := s.pushToken o .lineAt rule.render
  { s with document := s.document.pushChild s.current (.lineAt rule) }

/-- Takes note of the at-rule that has been read. -/
def addAtRule (o : Options) (s : State) : State :=
  match s.parts with
  | [] => s
  | name :: rest =>
    let value := Value.joinParts rest
    match Text.lower name with
    | "charset" => s.addCharset value
    | "namespace" => s.addNamespace value
    | "import" => s.addImport value
    | _ => s.addLineAt o ⟨name, value⟩

/-- Ends an at-rule without a body and goes back to what it stands among. -/
def endAtRule (o : Options) (s : State) : State :=
  { s.flushPart.addAtRule o with parts := [], mode := bodyMode s.origin }

/-! ## Declarations -/

/-- Cuts the mark of importance off the end of a value. -/
def cutImportant (parts : List String) : List String × Bool :=
  match parts.reverse with
  | word :: mark :: rest =>
    if mark == "!" && Text.sameLetters word "important" then (rest.reverse, true) else (parts, false)
  | _ => (parts, false)

/-- One part of a value with its color, number and font format in order. -/
def tidyPart (o : Options) (property : String) (line : Nat) (part : String) :
    String × List Message :=
  if part == "," || part == "!" then (part, [])
  else
    let (part, messages) :=
      if o.preserveCss then (part, [])
      else
        let (part, color) := Value.mendColor property part line
        let (part, number) := Value.shortenNumber o.convertUnit property part line
        (part, color ++ number)
    ((Text.quoteFormat? part).getD part, messages)

/-- Puts a declaration into the current block. -/
def addDeclaration (o : Options) (s : State) (property : String) (value : Value) : State :=
  let s := (s.pushToken o .property property).pushToken o .value value.render
  { s with
    document := s.document.modify s.current fun b =>
      { b with declarations := b.declarations.insert property value } }

/-- Puts a declaration into the current block, unless its property is unknown and to be discarded. -/
def checkDeclaration (o : Options) (s : State) (property : String) (value : Value) : State :=
  if o.preserveCss || Property.isValid property o.cssLevel then s.addDeclaration o property value
  else if o.discardInvalidProperties then s.warn s!"Removed invalid property: {property}"
  else
    let level := o.cssLevel.name
    (s.warn s!"Invalid property in {level}: {property}").addDeclaration o property value

/-- Ends the declaration that has been read. -/
def endDeclaration (o : Options) (s : State) : State :=
  let s := s.flushPart
  let property := Text.lower (Text.trim s.property)
  let (parts, important) := cutImportant s.parts
  let s := { s with parts := [], property := "" }
  if property.isEmpty then s
  else if s.openBlocks.isEmpty then
    s.warn s!"Dropped declaration outside of a block: {property}"
  else
    let tidied := parts.map (tidyPart o property s.valueLine)
    let s := s.say (tidied.flatMap (·.2))
    let text := Value.joinParts (tidied.map (·.1))
    if text.isEmpty then s.info s!"Removed empty declaration: {property}"
    else s.checkDeclaration o property ⟨text, important⟩

end State

end Stylesheet.Reader
