/-!
# Character classes of a stylesheet

A stylesheet is read character by character, and three classes decide what a character may do: it is a
*token* (it opens, closes or separates something), it is *space*, or it is *ordinary* and belongs to a
word. Space here means the five characters a stylesheet is laid out with once line ends have been
unified; the carriage return is not among them.

The module also holds what is done with whole texts by class: trimming space at both ends, folding the
case of the 26 basic letters, and looking at the start and the end of a text.
-/

namespace Stylesheet.Text

/-! ## The classes -/

/-- The characters that open, close or separate a part of a stylesheet. -/
def tokenChars : List Char :=
  ['/', '@', '}', '{', ';', ':', '=', '\'', '"', '(', ',', '\\', '!', '$', '%', '&', ')', '*', '+',
    '.', '<', '>', '?', '[', ']', '^', '\x60', '|', '~']

/-- A token character, whether or not it stands behind a backslash. -/
def isTokenChar (c : Char) : Bool := tokenChars.contains c

/-- The space characters: blank, line feed, tabulator, vertical tabulator and form feed. -/
def isSpace (c : Char) : Bool := c == ' ' || c == '\n' || c == '\t' || c == '\x0B' || c == '\x0C'

/-- A character that can only be part of a word. -/
def isOrdinary (c : Char) : Bool := !isTokenChar c && !isSpace c

/-- One of the 52 basic letters. -/
def isLetter (c : Char) : Bool := c.isAlpha

/-! ## Trimming -/

/-- Drops the longest run of characters of a class at both ends. -/
def trimBoth (p : Char → Bool) (s : List Char) : List Char :=
  ((s.dropWhile p).reverse.dropWhile p).reverse

/-- Drops space at both ends. -/
def trim (s : String) : String := String.ofList (trimBoth isSpace s.toList)

/-! ## Case and comparison -/

/-- Maps the capital basic letters to small ones and leaves every other character alone. -/
def lower (s : String) : String := String.ofList (s.toList.map Char.toLower)

/-- Equality up to the case of the basic letters. -/
def sameLetters (s t : String) : Bool := lower s == lower t

/-- The text contains the character. -/
def hasChar (s : String) (c : Char) : Bool := s.toList.contains c

/-- The last character of a text. -/
def last? (s : String) : Option Char := s.toList.getLast?

/-- The text without its last character. -/
def dropLast (s : String) : String := String.ofList s.toList.dropLast

/-- The text starts with the given one. -/
def startsWith (s start : String) : Bool := start.toList.isPrefixOf s.toList

/-- The text behind the given start, if the text has that start. -/
def dropStart? (s start : String) : Option String :=
  if startsWith s start then some (String.ofList (s.toList.drop start.toList.length)) else none

/-- The text before the given end, if the text has that end. -/
def dropEnd? (s finish : String) : Option String :=
  if finish.toList.isSuffixOf s.toList then
    some (String.ofList (s.toList.take (s.toList.length - finish.toList.length)))
  else none

/-- The first list of characters stands somewhere inside the second. -/
def occursInChars (needle : List Char) : List Char → Bool
  | [] => needle.isEmpty
  | c :: s => needle.isPrefixOf (c :: s) || occursInChars needle s

/-- The first text stands somewhere inside the second. -/
def occursIn (needle s : String) : Bool := occursInChars needle.toList s.toList

/-- The texts with a separator between each two of them. -/
def joinWith (sep : String) : List String → String
  | [] => ""
  | [s] => s
  | s :: t :: rest => s ++ sep ++ joinWith sep (t :: rest)

end Stylesheet.Text
