import Stylesheet.Text.Blank
import Stylesheet.Text.Class

/-!
# Finding import rules in a text

An import rule is `@import` with a target and a list of media behind it, up to the next semicolon. The target
is a quoted text, or `url(...)` around a quoted or a bare one. Rules are found in the plain text, wherever they
stand, from left to right; letters of the keywords may be of either case.
-/

namespace Stylesheet.Import

/-- An import rule as it stands in a text. -/
structure Rule where
  /-- The line it starts on, counted from 1. -/
  line : Nat
  /-- The rule as it is written. -/
  source : List Char
  target : String
  /-- What stands behind the target, without white space around it. -/
  media : String
deriving DecidableEq, Repr

/-- A text in pieces. -/
inductive Piece where
  | plain (c : Char)
  | rule (r : Rule)
deriving DecidableEq, Repr

/-- The text behind a word, if the text starts with it; the case of letters does not matter. -/
def skipWord? : List Char → List Char → Option (List Char)
  | [], s => some s
  | _ :: _, [] => none
  | w :: word, c :: s => if c.toLower == w then skipWord? word s else none

def skipBlank (s : List Char) : List Char := s.dropWhile Text.isBlank

/-- A text in quotes, and what follows it. -/
def quoted? : List Char → Option (List Char × List Char)
  | q :: s =>
    if q == '"' || q == '\'' then
      match s.dropWhile (· != q) with
      | _ :: rest => some (s.takeWhile (· != q), rest)
      | [] => none
    else none
  | [] => none

/-- A character of a bare target. -/
def isBare (c : Char) : Bool := c != ')' && c != '"' && c != '\'' && !Text.isBlank c

/-- The target between the parentheses of `url(...)`, and what follows them. -/
def enclosed? (s : List Char) : Option (List Char × List Char) :=
  let s := skipBlank s
  let (target, rest) := (quoted? s).getD (s.takeWhile isBare, s.dropWhile isBare)
  match skipBlank rest with
  | ')' :: rest => some (target, rest)
  | _ => none

/-- The target of an import rule, and what follows it. -/
def target? (s : List Char) : Option (List Char × List Char) :=
  match skipWord? "url(".toList s with
  | some s => enclosed? s
  | none => quoted? s

/-- The import rule that a text on the given line starts with, and what follows it. -/
def rule? (line : Nat) (s : List Char) : Option (Rule × List Char) := do
  let body ← skipWord? "@import".toList s
  let (target, rest) ← target? (skipBlank body)
  match rest.dropWhile (· != ';') with
  | [] => none
  | _ :: after =>
    let media := Text.trimBoth Text.isBlank (rest.takeWhile (· != ';'))
    some
      ({ line
         source := s.take (s.length - after.length)
         target := String.ofList target
         media := String.ofList media },
        after)

/-- Cuts a text into pieces. A piece takes at least one character, so there are no more than characters. -/
def piecesFrom : Nat → Nat → List Char → List Piece
  | 0, _, _ => []
  | _ + 1, _, [] => []
  | fuel + 1, line, c :: s =>
    match rule? line (c :: s) with
    | some (r, after) =>
      .rule r :: piecesFrom fuel (line + r.source.count '\n') after
    | none => .plain c :: piecesFrom fuel (if c == '\n' then line + 1 else line) s

/-- The pieces of a text. -/
def pieces (s : String) : List Piece := piecesFrom s.toList.length 1 s.toList

/-- The target is not a file. -/
def isRemote (target : String) : Bool :=
  let t := Text.lower target
  Text.startsWith t "http:" || Text.startsWith t "https:" || Text.startsWith t "//"

end Stylesheet.Import
