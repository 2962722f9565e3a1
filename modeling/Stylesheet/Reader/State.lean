import Stylesheet.Document.Basic
import Stylesheet.Keyword
import Stylesheet.Log
import Stylesheet.Options
import Stylesheet.Text.Quoted

/-!
# The state of the reader

A stylesheet is read from left to right by a machine with six modes. Constructs that stand inside others,
such as a string inside a function inside a value, put the mode to return to on a stack. What has been read
of a construct is collected in buffers, one for each kind of construct, and goes into the document when the
construct ends.

This module holds the state of the machine and the small moves on it that several modes share.
-/

namespace Stylesheet.Reader

/-- What is being read. -/
inductive Mode where
  /-- The name of a block, or whatever else stands between blocks. -/
  | selector
  /-- The name of a property. -/
  | property
  /-- The value of a property. -/
  | value
  /-- A quoted string. -/
  | string
  /-- The arguments of a function. -/
  | bracket
  /-- The words of an at-rule. -/
  | atRule
deriving DecidableEq, Repr

/-- The mode in which the body of an at-rule is read. -/
def bodyMode : Keyword.AtBody → Mode
  | .declarations => .property
  | .rules => .selector

/-- The state of the reader. -/
structure State where
  mode : Mode := .selector
  /-- The modes to return to, innermost first. -/
  returns : List Mode := []
  /-- What the at-rule that is being read stands among. -/
  origin : Keyword.AtBody := .rules
  /-- The blocks that are open, innermost first. The root is always open and not listed. -/
  openBlocks : List BlockId := []
  /-- The line of the character that is being read. -/
  line : Nat := 1
  /-- The line on which the value of the current declaration starts. -/
  valueLine : Nat := 1
  selector : String := ""
  property : String := ""
  /-- The part of a value or at-rule that is being read. -/
  part : String := ""
  /-- The parts that are finished. -/
  parts : List String := []
  /-- The string that is being read, with its opening quote. -/
  string : String := ""
  /-- The quote that ends it. -/
  quote : Char := '"'
  /-- The string keeps its quotes in any case. -/
  keepQuotes : Bool := false
  /-- The name of the function whose arguments are being read. -/
  function : String := ""
  /-- How many parentheses are open. -/
  depth : Nat := 0
  document : Document := .empty
  log : List Message := []

namespace State

/-! ## Messages and tokens -/

/-- Adds messages to the log. -/
def say (s : State) (messages : List Message) : State := { s with log := s.log ++ messages }

/-- Reports something on the current line. -/
def info (s : State) (text : String) : State := s.say [.info .parser s.line text]

/-- Warns about something on the current line. -/
def warn (s : State) (text : String) : State := s.say [.warn .parser s.line text]

/-- Adds a token to the stream, if there is one. -/
def pushToken (o : Options) (s : State) (kind : TokenKind) (data : String) : State :=
  if o.preserveCss then
    { s with document := { s.document with tokens := s.document.tokens ++ [⟨kind, data⟩] } }
  else s

/-! ## Modes and blocks -/

/-- Returns to the mode on top of the stack, or to the given one if there is none. -/
def popMode (s : State) (otherwise : Mode) : State :=
  match s.returns with
  | [] => { s with mode := otherwise }
  | mode :: returns => { s with mode, returns }

/-- Turns to a mode and comes back to another. -/
def pushMode (s : State) (mode back : Mode) : State := { s with mode, returns := back :: s.returns }

/-- The innermost open block. -/
def current (s : State) : BlockId := s.openBlocks.head?.getD Document.root

/-- Closes the innermost block. The root stays open. -/
def closeBlock (o : Options) (s : State) : State :=
  match s.openBlocks with
  | [] => s
  | id :: openBlocks =>
    let kind := if (s.document.get? id).any (·.isSelector) then .selectorEnd else .atEnd
    { s with openBlocks }.pushToken o kind ""

/-! ## Buffers -/

/-- Finishes the part that is being read. -/
def flushPart (s : State) : State :=
  let part := Text.trim s.part
  { s with part := "", parts := if part.isEmpty then s.parts else s.parts ++ [part] }

/-- Starts a string that ends with the quote it starts with. -/
def beginString (s : State) (quote : Char) (keepQuotes : Bool) : State :=
  { s with string := String.singleton quote, quote, keepQuotes }.pushMode .string s.mode

/-- The properties whose strings keep their quotes. -/
def quotedProperties : List String := ["content", "quotes"]

/-- The string as it goes into a value: as it was written where the source is kept, else without quotes
where it can do without them. -/
def stringText (o : Options) (s : State) : String :=
  if o.preserveCss then s.string
  else if s.keepQuotes || quotedProperties.contains (Text.lower (Text.trim s.property)) then
    Text.doubleQuoted s.string
  else Text.unquoted s.string

/-- Ends a string and goes back to where it stands. -/
def closeString (o : Options) (s : State) : State :=
  let text := s.stringText o
  let s := { s with string := "", keepQuotes := false }.popMode .value
  if s.mode = .selector then { s with selector := s.selector ++ text }
  else { s with part := s.part ++ text }

end State

end Stylesheet.Reader
