import Stylesheet.Text.Class

/-!
# Messages and events

A malformed stylesheet is never refused: whatever is mended, dropped or improved on the way is recorded
as a message with its severity and its line. The messages of a run form its log, in the order in which
they arose. Functions that report something return the messages they add, and the log is what all of
them add up to.

An event is what an observer of a run sees: every message, and the two steps of a run that are announced
without being logged.
-/

namespace Stylesheet

/-- How serious a message is. -/
inductive Severity where
  | information
  | warning
  | error
deriving DecidableEq, Repr

/-- The part of the work a message is about. -/
inductive Component where
  | parser
  | number
  | color
  | shorthand
  | selectors
  | imports
deriving DecidableEq, Repr

/-- Something that was noticed or changed. -/
structure Message where
  component : Component
  severity : Severity
  /-- The source line, counted from 1. Messages about the finished tree have line 0. -/
  line : Nat
  text : String
deriving DecidableEq, Repr

namespace Message

def info (component : Component) (line : Nat) (text : String) : Message :=
  ⟨component, .information, line, text⟩

def warn (component : Component) (line : Nat) (text : String) : Message :=
  ⟨component, .warning, line, text⟩

def error (component : Component) (line : Nat) (text : String) : Message :=
  ⟨component, .error, line, text⟩

end Message

/-- The name of a severity as it is reported. -/
def Severity.name : Severity → String
  | information => "Information"
  | warning => "Warning"
  | error => "Error"

/-! ## The log -/

/-- The messages of a run, in order. -/
structure Log where
  messages : List Message := []
deriving DecidableEq, Repr

namespace Log

/-- Adds messages at the end. -/
def append (log : Log) (more : List Message) : Log := ⟨log.messages ++ more⟩

/-- Adds one message at the end. -/
def push (log : Log) (m : Message) : Log := log.append [m]

def size (log : Log) : Nat := log.messages.length

def isEmpty (log : Log) : Bool := log.messages.isEmpty

/-- The messages of one severity, in order. -/
def ofSeverity (log : Log) (s : Severity) : List Message := log.messages.filter (·.severity == s)

/-- The messages of each line that has some, lines ascending, and in order within a line. -/
def byLine (log : Log) : List (Nat × List Message) :=
  let lines := ((log.messages.map (·.line)).eraseDups).mergeSort (· ≤ ·)
  lines.map fun n => (n, log.messages.filter (·.line == n))

/-- Some message contains the text. -/
def mentions (log : Log) (needle : String) : Bool :=
  log.messages.any fun m => Text.occursIn needle m.text

def hasErrors (log : Log) : Bool := log.messages.any (·.severity == .error)

end Log

/-! ## Events -/

/-- What an observer of a run sees. -/
inductive Event where
  /-- A message was logged. -/
  | message (m : Message)
  /-- A stylesheet of this many bytes is about to be read. -/
  | processing (bytes : Nat)
  /-- The file at this path is about to be inlined. -/
  | inlining (path : String)
deriving DecidableEq, Repr

/-- The name under which the events of a component are announced. -/
def Component.target : Component → String
  | parser => "csstidy::parser"
  | number => "csstidy::number"
  | color => "csstidy::color"
  | shorthand => "csstidy::shorthand"
  | selectors => "csstidy::selectors"
  | imports => "csstidy::import"

/-- The level at which messages of a severity are announced. -/
def Severity.level : Severity → String
  | information => "DEBUG"
  | warning => "WARN"
  | error => "ERROR"

namespace Event

def level : Event → String
  | message m => m.severity.level
  | processing _ => "DEBUG"
  | inlining _ => "DEBUG"

def target : Event → String
  | message m => m.component.target
  | processing _ => "csstidy"
  | inlining _ => Component.imports.target

def text : Event → String
  | message m => m.text
  | processing _ => "processing stylesheet"
  | inlining _ => "inlining import"

/-- The message of an event that logs one. -/
def message? : Event → Option Message
  | message m => some m
  | _ => none

end Event

end Stylesheet
