import Stylesheet.Declarations
import Stylesheet.Text.Class

/-!
# Blocks

A block is what stands between braces, with a name in front of it: the declarations of a selector, or the
body of an at-rule. Besides declarations it holds, in order, blocks of its own, at-rules without a body
and comments. Blocks refer to each other by identifiers, which a document gives out.
-/

namespace Stylesheet

/-- Identifies a block of a document. -/
structure BlockId where
  index : Nat
deriving DecidableEq, Repr

/-- An at-rule without a body, kept as written. -/
structure LineAt where
  /-- The name without the at-sign. -/
  name : String
  value : String
deriving DecidableEq, Repr

/-- The rule as it is written. -/
def LineAt.render (rule : LineAt) : String :=
  if rule.value.isEmpty then "@" ++ rule.name ++ ";" else "@" ++ rule.name ++ " " ++ rule.value ++ ";"

/-- What a block holds besides declarations. -/
inductive Child where
  | block (id : BlockId)
  | lineAt (rule : LineAt)
  | comment (text : String)
deriving DecidableEq, Repr

/-- The identifier of a child that is a block. -/
def Child.blockId? : Child → Option BlockId
  | block id => some id
  | _ => none

/-- A comment. -/
def Child.isComment : Child → Bool
  | comment _ => true
  | _ => false

/-- An at-rule without a body. -/
def Child.isLineAt : Child → Bool
  | lineAt _ => true
  | _ => false

/-- What the name of a block is. -/
inductive BlockKind where
  /-- A selector, which is a list of fragments put together by commas. -/
  | selector (fragments : List String)
  | atBlock
deriving DecidableEq, Repr

/-- A named block. -/
structure Block where
  name : String
  kind : BlockKind
  declarations : Declarations := .empty
  children : List Child := []
deriving DecidableEq, Repr

namespace Block

def isSelector (b : Block) : Bool :=
  match b.kind with
  | .selector _ => true
  | .atBlock => false

def isAtBlock (b : Block) : Bool := !b.isSelector

/-- The fragments of a selector; an at-rule has none. -/
def fragments (b : Block) : List String :=
  match b.kind with
  | .selector fragments => fragments
  | .atBlock => []

/-- The blocks among the children. -/
def childBlocks (b : Block) : List BlockId := b.children.filterMap Child.blockId?

/-- A block that declares a font. Each of them stands for itself, whatever others are called. -/
def isFontFace (b : Block) : Bool :=
  b.isAtBlock && Text.startsWith (Text.lower b.name) "@font-face"

/-- Adds more selectors to the name. -/
def addSelectors (b : Block) (name : String) (fragments : List String) : Block :=
  { b with
    name := b.name ++ "," ++ name
    kind :=
      match b.kind with
      | .selector old => .selector (old ++ fragments)
      | .atBlock => .atBlock }

/-- Puts a child at the end. -/
def pushChild (b : Block) (child : Child) : Block := { b with children := b.children ++ [child] }

/-- Nothing in the block itself is worth writing. -/
def isBare (b : Block) : Bool := b.declarations.isEmpty && !b.children.any Child.isLineAt

end Block

end Stylesheet
