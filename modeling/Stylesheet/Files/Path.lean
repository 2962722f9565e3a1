import Stylesheet.Text.Class

/-!
# Paths

A path is a text of names with slashes between them. Paths are put together and cut as texts, without a look
at what they lead to: empty names and single dots may stay in them.
-/

namespace Stylesheet.Path

/-- A path that starts at the top. -/
def isAbsolute (p : String) : Bool := Text.startsWith p "/"

/-- The path of a target that is given from a directory. An absolute target stands for itself. -/
def join (dir target : String) : String :=
  if isAbsolute target || dir.isEmpty then target
  else if dir.toList.getLast? = some '/' then dir ++ target
  else dir ++ "/" ++ target

/-- How many characters at the start of a path no cut takes away: the slash of an absolute path, or a first
dot that stands for the directory itself. -/
def fixedLength : List Char → Nat
  | '/' :: _ => 1
  | ['.'] => 1
  | '.' :: '/' :: _ => 1
  | _ => 0

/-- Drops the names at the end of a reversed path that lead nowhere else: empty ones and single dots. -/
def dropIdle : List Char → List Char
  | '/' :: rest => dropIdle rest
  | '.' :: '/' :: rest => dropIdle rest
  | ['.'] => []
  | s => s

/-- Drops the name at the end of a reversed path with the slash in front of it. -/
def dropName (s : List Char) : List Char := (s.dropWhile (· != '/')).drop 1

/-- The directory that the last name of a path is in. -/
def parent (p : String) : String :=
  let cs := p.toList
  let n := fixedLength cs
  String.ofList (cs.take n ++ (dropIdle (dropName (dropIdle (cs.drop n).reverse))).reverse)

/-- The names of a path; the first one of an absolute path is empty. -/
def names (p : String) : List String :=
  let rec go : List Char → List (List Char)
    | [] => [[]]
    | '/' :: rest => [] :: go rest
    | c :: rest =>
      match go rest with
      | [] => [[c]]
      | name :: more => (c :: name) :: more
  (go p.toList).map String.ofList

end Stylesheet.Path
