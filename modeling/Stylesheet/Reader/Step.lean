import Stylesheet.Reader.Tree
import Stylesheet.Text.Cursor
import Stylesheet.Text.Escape

/-!
# One step of the reader

In every mode the next character decides what happens: it goes into a buffer, alone or with the run of
ordinary characters it starts, or it ends, opens or interrupts the construct that is being read. A step is
told the cursor in front of the character, looks ahead as far as it needs to, and says how many more
characters it has taken along.
-/

namespace Stylesheet.Reader

open Text (Cursor)

namespace State

/-! ## Comments, escapes and runs -/

/-- A comment starts at the cursor. -/
def atComment (k : Cursor) : Bool := k.rest.take 2 == ['/', '*']

/-- The text in front of the first end of a comment. -/
def cutComment? : List Char → Option (List Char)
  | [] => none
  | '*' :: '/' :: _ => some []
  | c :: s => (cutComment? s).map (c :: ·)

/-- Reads a comment. One without an end goes up to the last character, which is not part of it. -/
def readComment (o : Options) (k : Cursor) (s : State) : State × Nat :=
  let body := k.rest.drop 2
  match cutComment? body with
  | some text => (s.addComment o text, text.length + 3)
  | none => (s.addComment o body.dropLast, body.dropLast.length + 1)

/-- What is said about an escape. -/
def escapeText : Text.EscapeChange → String
  | .replaced digits c =>
    let char := String.singleton c
    s!"Replaced unicode notation: changed \\{digits} to {char}"
  | .dropped => "Removed unnecessary backslash"

/-- Reads an escape: its text, the state behind it, and how many characters it takes along. -/
def readEscape (o : Options) (k : Cursor) (s : State) : String × State × Nat :=
  let after := k.rest.drop 1
  let e := Text.Escape.read o.removeBackslash after
  let s := { s with line := s.line + (after.take e.length).count '\n' }
  let s :=
    match e.change with
    | some change => s.info (escapeText change)
    | none => s
  (e.text, s, e.length)

/-- The run of ordinary characters at the cursor, or the next character alone, and how many characters
beyond the next one that takes along. -/
def readRun (k : Cursor) (c : Char) : String × Nat :=
  let run := k.ordinaryRun
  if run.isEmpty then (String.singleton c, 0) else (String.ofList run, run.length - 1)

/-! ## Names -/

/-- Space in a selector is kept as one blank, and not at all behind a comma. -/
def spaceSelector (s : State) : State :=
  match Text.last? s.selector with
  | none => s
  | some c => if c == ',' || c == ' ' then s else { s with selector := s.selector.push ' ' }

/-- A step inside a selector. -/
def inSelector (o : Options) (k : Cursor) (c : Char) (s : State) : State × Nat :=
  if !k.atToken then
    if Text.isSpace c then (s.spaceSelector, 0)
    else
      let (run, taken) := readRun k c
      ({ s with selector := s.selector ++ run }, taken)
  else if atComment k then s.readComment o k
  else if c == '{' then (s.openSelector o, 0)
  else if c == ',' then ({ s with selector := Text.trim s.selector ++ "," }, 0)
  else if c == '@' && (Text.trim s.selector).isEmpty then
    ({ s with selector := "", origin := .rules, mode := .atRule }, 0)
  else if c == '"' || c == '\'' then (s.beginString c (k.before.head? == some '='), 0)
  else if c == '}' then ({ (s.closeBlock o).popMode .selector with selector := "" }, 0)
  else if c == '\\' then
    let (text, s, taken) := s.readEscape o k
    ({ s with selector := s.selector ++ text }, taken)
  else if c == '*' && (k.rest.drop 1).head?.any ['.', '#', '[', ':'].contains then
    (s.info "Removed redundant universal selector", 0)
  else ({ s with selector := s.selector.push c }, 0)

/-- A step inside the name of a property. -/
def inProperty (o : Options) (k : Cursor) (c : Char) (s : State) : State × Nat :=
  if !k.atToken then
    if Text.isSpace c then (s, 0)
    else
      let (run, taken) := readRun k c
      ({ s with property := s.property ++ run }, taken)
  else if (c == ':' || c == '=') && !(Text.trim s.property).isEmpty then
    ({ s with valueLine := s.line }.pushMode .value .property, 0)
  else if atComment k then s.readComment o k
  else if c == '}' then
    ({ (s.closeBlock o).popMode .selector with selector := "", property := "" }, 0)
  else if c == '@' && s.property.isEmpty then
    ({ s with origin := .declarations, mode := .atRule }, 0)
  else if c == ';' then ({ s with property := "" }, 0)
  else if c == '\\' then
    let (text, s, taken) := s.readEscape o k
    ({ s with property := s.property ++ text }, taken)
  else if s.property.isEmpty then ({ s with property := s.property.push c }, 0)
  else (s, 0)

/-! ## Values -/

/-- The text starts with a known property and a colon, so that a line break in front of it ends a
declaration. -/
def propertyFollows (text : List Char) : Bool :=
  let name := text.takeWhile fun c => c != ':' && c != ';' && c != '{' && c != '}'
  (text.drop name.length).head? == some ':'
    && Property.isKnown (Text.lower (Text.trim (String.ofList name)))

/-- A step over space or ordinary characters inside a value or an at-rule. -/
def inWords (k : Cursor) (c : Char) (s : State) : State × Nat :=
  if Text.isSpace c then (s.flushPart, 0)
  else
    let (run, taken) := readRun k c
    ({ s with part := s.part ++ run }, taken)

/-- A step inside a value. -/
def inValue (o : Options) (k : Cursor) (c : Char) (s : State) : State × Nat :=
  if (k.rest.drop 1).isEmpty then ((s.popMode .property).endDeclaration o, 0)
  else if c == '\n' && propertyFollows (k.rest.drop 1) then
    let s := s.warn "Added semicolon to the end of declaration"
    ((s.popMode .property).endDeclaration o, 0)
  else if !k.atToken then s.inWords k c
  else if atComment k then s.readComment o k
  else if c == '"' || c == '\'' then (s.beginString c false, 0)
  else if c == '(' then
    ({ s with function := s.part, part := s.part.push '(', depth := 1 }.pushMode .bracket .value, 0)
  else if c == ',' || c == '!' then
    let s := s.flushPart
    ({ s with parts := s.parts ++ [String.singleton c] }, 0)
  else if c == '\\' then
    let (text, s, taken) := s.readEscape o k
    ({ s with part := s.part ++ text }, taken)
  else if c == ';' then ((s.popMode .property).endDeclaration o, 0)
  else if c == '}' then
    let s := (s.endDeclaration o).closeBlock o
    ({ { s with returns := s.returns.drop 1 }.popMode .selector with selector := "" }, 0)
  else ({ s with part := s.part.push c }, 0)

/-- Puts a character into the arguments of a function. Space is one blank, and none at all behind an
opening parenthesis, in front of a closing one, and beside a comma. -/
def pushArgument (s : State) (c : Char) : State :=
  let final := Text.last? s.part
  if c == ' ' && (final == some ' ' || final == some ',' || final == some '(') then s
  else if (c == ',' || c == ')') && final == some ' ' then
    { s with part := (Text.dropLast s.part).push c }
  else { s with part := s.part.push c }

/-- A step inside the arguments of a function. -/
def inBracket (k : Cursor) (c : Char) (s : State) : State × Nat :=
  if Text.isSpace c then (s.pushArgument ' ', 0)
  else if k.escaped || !(c == '"' || c == '\'' || c == '(' || c == ')' || c == ',') then
    let (run, taken) := readRun k c
    ({ s with part := s.part ++ run }, taken)
  else if c == '"' || c == '\'' then (s.beginString c (s.function == "format"), 0)
  else if c == '(' then ({ s with depth := s.depth + 1 }.pushArgument c, 0)
  else if c == ')' then
    let s := { s with depth := s.depth - 1 }.pushArgument c
    (if s.depth == 0 then { s.popMode .value with function := "" } else s, 0)
  else (s.pushArgument c, 0)

/-- A step inside a string. A line break has to be escaped in a string, and is if it was not. -/
def inString (o : Options) (k : Cursor) (c : Char) (s : State) : State × Nat :=
  if c == '\n' && !k.escaped then
    ({ s with string := s.string ++ "\\A " }.warn "Fixed incorrect newline in string", 0)
  else
    let s := { s with string := s.string.push c }
    (if c == s.quote && !k.escaped then s.closeString o else s, 0)

/-! ## At-rules -/

/-- A step inside an at-rule. A closing brace, which also ends the block around the rule, is left to the
mode that comes after. -/
def inAtRule (o : Options) (k : Cursor) (c : Char) (s : State) : State × Nat :=
  if !k.atToken then s.inWords k c
  else if atComment k then s.readComment o k
  else if c == '"' || c == '\'' then (s.beginString c true, 0)
  else if c == '(' then
    let part := s.part.push '('
    ({ s with function := part, part, depth := 1 }.pushMode .bracket .atRule, 0)
  else if c == ';' then (s.endAtRule o, 0)
  else if c == ',' then
    let s := s.flushPart
    ({ s with parts := s.parts ++ [","] }, 0)
  else if c == '{' then (s.openAtBlock o (k.rest.drop 1), 0)
  else if c == '\\' then
    let (text, s, taken) := s.readEscape o k
    ({ s with part := s.part ++ text }, taken)
  else ({ s with part := s.part.push c }, 0)

/-! ## All modes -/

/-- A step in the current mode: the state behind it, and how many characters beyond the next one it has
taken along. -/
def step (o : Options) (k : Cursor) (c : Char) (s : State) : State × Nat :=
  match s.mode with
  | .selector => s.inSelector o k c
  | .property => s.inProperty o k c
  | .value => s.inValue o k c
  | .string => s.inString o k c
  | .bracket => s.inBracket k c
  | .atRule => s.inAtRule o k c

/-! ## The end of the text -/

/-- The string that is being read, without space at its ends and a backslash that would escape the quote
put behind it. -/
def closedString (s : State) : String :=
  let text := Text.trim s.string
  let text := if Text.oddBackslashes text.toList.reverse then Text.dropLast text else text
  text.push s.quote

/-- Closes a string that the text ends in. -/
def finishString (o : Options) (s : State) : State :=
  if s.mode = .string then
    let s := s.warn "Unterminated string closed at end of input"
    { s with string := s.closedString }.closeString o
  else s

/-- Closes the function that the text ends in. -/
def finishBracket (s : State) : State :=
  if s.mode = .bracket then
    let s := s.warn "Unclosed parenthesis closed at end of input"
    let closing := String.ofList (List.replicate (max s.depth 1) ')')
    { s with part := s.part ++ closing }.popMode .value
  else s

/-- Ends the declaration or at-rule that the text ends in. -/
def finishWords (o : Options) (s : State) : State :=
  match s.mode with
  | .value => s.endDeclaration o
  | .atRule => s.endAtRule o
  | _ => s

/-- Ends whatever the end of the text has left open. -/
def finish (o : Options) (s : State) : State := ((s.finishString o).finishBracket).finishWords o

end State

end Stylesheet.Reader
