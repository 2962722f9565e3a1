import Stylesheet.Text.Cursor

/-!
# Splitting a value outside strings and parentheses

A separator counts only where it stands on its own: not escaped, not inside a quoted string, not inside
parentheses. The scan carries what it has to know about the part of the text it has passed: the run of
backslashes in front, the open quote and the depth of parentheses.
-/

namespace Stylesheet.Text

/-- What the scan knows at a place of the text. -/
structure Nesting where
  /-- The next character is escaped. -/
  escaped : Bool
  /-- The quote that is open, if any. -/
  quote : Option Char
  /-- How many parentheses are open. -/
  depth : Nat
deriving DecidableEq, Repr

namespace Nesting

/-- In front of a text nothing is open. -/
def outside : Nesting := ⟨false, none, 0⟩

/-- What is known behind one more character. A closing parenthesis too many is ignored. -/
def next (n : Nesting) (c : Char) : Nesting :=
  let escaped := c == '\\' && !n.escaped
  match n.quote with
  | some q => { n with escaped, quote := if c == q && !n.escaped then none else some q }
  | none =>
    if n.escaped then { n with escaped }
    else if c == '"' || c == '\'' then { n with escaped, quote := some c }
    else if c == '(' then { n with escaped, depth := n.depth + 1 }
    else if c == ')' then { n with escaped, depth := n.depth - 1 }
    else { n with escaped }

/-- A separator at this place splits. -/
def free (n : Nesting) : Bool := !n.escaped && n.quote.isNone && n.depth == 0

end Nesting

/-- Characters that change the nesting never split, even as the separator. -/
def nests (c : Char) : Bool := c == '"' || c == '\'' || c == '(' || c == ')'

/-- The parts of a text from a place with the given nesting on; there is always at least one. -/
def splitFrom (sep : Char) : Nesting → List Char → List (List Char)
  | _, [] => [[]]
  | n, c :: s =>
    if c == sep && n.free && !nests c then [] :: splitFrom sep (n.next c) s
    else
      match splitFrom sep (n.next c) s with
      | [] => [[c]]
      | part :: parts => (c :: part) :: parts

/-- The parts between free separators. An empty text and a lone separator have no parts. -/
def splitChars (sep : Char) (s : List Char) : List (List Char) :=
  if s.isEmpty || s == [sep] then [] else splitFrom sep .outside s

/-- The parts of a text between free separators. -/
def split (sep : Char) (s : String) : List String := (splitChars sep s.toList).map String.ofList

/-- The non-empty parts of a text between free space characters. -/
def words (s : String) : List String :=
  (split ' ' (String.ofList (s.toList.map fun c => if isSpace c then ' ' else c))).filter
    fun part => !part.isEmpty

end Stylesheet.Text
