import Stylesheet.Text.Class

/-!
# A cursor into a text

A text that is being scanned is cut in two at the cursor: the characters passed, nearest first, and the
characters still to come. Looking back is then as cheap as looking ahead, and nothing can be read outside
the text.

Looking back is needed for one question only: is the next character *escaped*? It is when an odd number
of backslashes stands directly in front of it, so that in `\\:` the colon is free and in `\:` it is not.
-/

namespace Stylesheet.Text

/-- A place between two characters of a text. -/
structure Cursor where
  /-- The characters in front of the cursor, nearest first. -/
  before : List Char
  /-- The characters behind the cursor. -/
  rest : List Char
deriving DecidableEq, Repr

/-- The number of backslashes that stand directly in front of a place is odd. -/
def oddBackslashes (before : List Char) : Bool := (before.takeWhile (· == '\\')).length % 2 == 1

namespace Cursor

/-- The cursor in front of a text. -/
def start (text : List Char) : Cursor := ⟨[], text⟩

/-- The cursor behind the first `n` characters of a text, or at its end. -/
def atIndex (text : List Char) (n : Nat) : Cursor := ⟨(text.take n).reverse, text.drop n⟩

/-- The whole text. -/
def text (k : Cursor) : List Char := k.before.reverse ++ k.rest

/-- How many characters have been passed. -/
def index (k : Cursor) : Nat := k.before.length

/-- Moves over `n` characters, or to the end. -/
def advance (k : Cursor) (n : Nat) : Cursor := ⟨(k.rest.take n).reverse ++ k.before, k.rest.drop n⟩

/-- The next character is escaped. -/
def escaped (k : Cursor) : Bool := oddBackslashes k.before

/-- The next character is a token that is not escaped. -/
def atToken (k : Cursor) : Bool := k.rest.head?.any isTokenChar && !k.escaped

/-- The longest run of ordinary characters that comes next. -/
def ordinaryRun (k : Cursor) : List Char := k.rest.takeWhile isOrdinary

/-- Moving keeps the text. -/
theorem text_advance (k : Cursor) (n : Nat) : (k.advance n).text = k.text := by
  simp [advance, text]

end Cursor

end Stylesheet.Text
