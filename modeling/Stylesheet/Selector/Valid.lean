import Stylesheet.Text.Blank
import Stylesheet.Text.Split

/-!
# Which selectors are well formed

A selector is a group of alternatives put together by commas. An alternative is a list of parts with a
combinator between each two of them: one of `+`, `>`, `~` with white space around it, or white space alone.
A selector is well formed if no part is missing.
-/

namespace Stylesheet.Selector

/-- A combinator that is written with a character of its own. -/
def isCombinator (c : Char) : Bool := c == '+' || c == '>' || c == '~'

/-- The length of the combinator at the start of a text, white space on both sides included; zero if there
is none. -/
def combinatorLength (s : List Char) : Nat :=
  let space := (s.takeWhile Text.isBlank).length
  match s.drop space with
  | c :: rest =>
    if isCombinator c then space + 1 + (rest.takeWhile Text.isBlank).length else space
  | [] => space

/-- The parts of a text between its combinators. -/
def parts (s : List Char) : List (List Char) :=
  match s with
  | [] => [[]]
  | c :: rest =>
    match combinatorLength (c :: rest) with
    | 0 =>
      match parts rest with
      | [] => [[c]]
      | part :: more => (c :: part) :: more
    | n + 1 => [] :: parts (rest.drop n)
termination_by s.length
decreasing_by
  · simp
  · simp only [List.length_drop, List.length_cons]; omega

/-- An alternative of a selector misses no part. -/
def isValidAlternative (s : String) : Bool :=
  let text := Text.trimBoth Text.isBlank s.toList
  !text.isEmpty && (parts text).all fun part => !part.isEmpty

/-- A selector has alternatives, and none of them misses a part. -/
def isValid (s : String) : Bool :=
  let alternatives := Text.split ',' s
  !alternatives.isEmpty && alternatives.all isValidAlternative

end Stylesheet.Selector
