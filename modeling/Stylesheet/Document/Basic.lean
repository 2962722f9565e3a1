import Stylesheet.Document.Block

/-!
# Documents

A document is a tree of blocks below a root that has no name and is never written, together with the rules
that stand in front of everything else: the character set, imports and namespaces. Where the layout of the
source is to be kept, the document also holds the stream of what was read.

The blocks are held in a table by their identifiers. An identifier is given out once: when its block is
removed, its place in the table stays vacant, and whoever still has the identifier finds nothing there.
-/

namespace Stylesheet

/-- What a token of the stream stands for. -/
inductive TokenKind where
  | atStart
  | atEnd
  | selectorStart
  | selectorEnd
  | property
  | value
  | comment
  | lineAt
deriving DecidableEq, Repr

/-- Something that was read, in the order of the source. -/
structure Token where
  kind : TokenKind
  data : String
deriving DecidableEq, Repr

/-- A stylesheet that has been read. -/
structure Document where
  /-- The blocks by their identifiers; a removed block leaves a vacant place. -/
  blocks : Array (Option Block)
  charset : Option String := none
  namespaces : List String := []
  imports : List LineAt := []
  /-- The stream, if the layout of the source is kept. -/
  tokens : List Token := []
deriving DecidableEq, Repr

namespace Document

/-- The identifier of the root. -/
def root : BlockId := ⟨0⟩

/-- A document with nothing but its root. -/
def empty : Document := { blocks := #[some { name := "", kind := .atBlock }] }

/-! ## Looking up and changing blocks -/

/-- The block with an identifier, unless it has been removed. -/
def get? (d : Document) (id : BlockId) : Option Block := d.blocks[id.index]?.join

/-- The block is there. -/
def isLive (d : Document) (id : BlockId) : Bool := (d.get? id).isSome

/-- Changes a block, if it is there. -/
def modify (d : Document) (id : BlockId) (f : Block → Block) : Document :=
  match d.get? id with
  | some b => { d with blocks := d.blocks.setIfInBounds id.index (some (f b)) }
  | none => d

/-- The blocks among the children of a block. -/
def childBlocks (d : Document) (id : BlockId) : List BlockId :=
  ((d.get? id).map Block.childBlocks).getD []

/-- Removes a block from the table. -/
def vacate (d : Document) (id : BlockId) : Document :=
  { d with blocks := d.blocks.setIfInBounds id.index none }

/-- The identifier that is given out next. -/
def fresh (d : Document) : BlockId := ⟨d.blocks.size⟩

/-- Adds a block to the table under the next identifier. -/
def alloc (d : Document) (b : Block) : Document := { d with blocks := d.blocks.push (some b) }

/-! ## Building the tree -/

/-- Puts a child at the end of a block. -/
def pushChild (d : Document) (parent : BlockId) (child : Child) : Document :=
  d.modify parent (·.pushChild child)

/-- Puts a new block at the end of another, under the next identifier. -/
def addBlock (d : Document) (parent : BlockId) (b : Block) : Document :=
  (d.alloc b).pushChild parent (.block d.fresh)

/-- Puts a new block between the children of another, under the next identifier. -/
def insertBlockAt (d : Document) (parent : BlockId) (i : Nat) (b : Block) : Document :=
  (d.alloc b).modify parent fun p =>
    { p with children := p.children.take i ++ .block d.fresh :: p.children.drop i }

/-- Takes a block out of the children of another. -/
def detach (d : Document) (parent id : BlockId) : Document :=
  d.modify parent fun p => { p with children := p.children.filter (· != .block id) }

/-! ## Walking -/

/-- A block and all blocks below it, each in front of the blocks it holds. A tree is never deeper than its
table is large, which bounds the descent. -/
def walkFrom (d : Document) : Nat → BlockId → List BlockId
  | 0, _ => []
  | depth + 1, id => id :: (d.childBlocks id).flatMap (d.walkFrom depth)

/-- How deep a walk has to go at most. -/
def maxDepth (d : Document) : Nat := d.blocks.size + 1

/-- A block and all blocks below it. -/
def subtree (d : Document) (id : BlockId) : List BlockId := d.walkFrom d.maxDepth id

/-- All blocks of the tree, the root first. -/
def walk (d : Document) : List BlockId := d.subtree root

/-- The blocks below a block, with how deep they lie. -/
def outlineFrom (d : Document) : Nat → Nat → BlockId → List (Nat × Block)
  | 0, _, _ => []
  | fuel + 1, depth, id =>
    match d.get? id with
    | none => []
    | some b => (depth, b) :: b.childBlocks.flatMap (d.outlineFrom fuel (depth + 1))

/-- The blocks of the tree in the order of a walk, with how deep they lie. -/
def outline (d : Document) : List (Nat × Block) := d.outlineFrom d.maxDepth 0 root

/-- The first block of a name among the children of a block. -/
def findChild? (d : Document) (parent : BlockId) (name : String) : Option BlockId :=
  (d.childBlocks parent).find? fun id => (d.get? id).any (·.name == name)

/-! ## Removing -/

/-- Removes a block with all blocks below it, and takes it out of the children of `parent`. -/
def remove (d : Document) (parent id : BlockId) : Document :=
  let detached := d.detach parent id
  (detached.subtree id).foldl vacate detached

/-! ## Measuring -/

/-- The blocks of the table. -/
def liveBlocks (d : Document) : List Block := d.blocks.toList.filterMap id

/-- How many blocks there are, the root included. -/
def blockCount (d : Document) : Nat := d.liveBlocks.length

/-- Nothing is worth writing. Comments and blocks without declarations do not count. -/
def isEmpty (d : Document) : Bool :=
  d.charset.isNone && d.imports.isEmpty && d.namespaces.isEmpty && d.tokens.isEmpty
    && d.liveBlocks.all Block.isBare

end Document

end Stylesheet
