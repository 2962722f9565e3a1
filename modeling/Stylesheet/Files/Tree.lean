import Stylesheet.Files.Path

/-!
# Files

A tree of files lies below the working directory. Nothing is known of the directories above it but that
they are there and hold nothing else.

A path is followed name by name. Every name but the last leads to a directory, and so does the last one if a
slash follows. Two paths with the same place lead to the same file, however they are written.
-/

namespace Stylesheet

/-- Why a file cannot be read. -/
inductive FileError where
  | notFound
  | notDirectory
  | isDirectory
  | nameTooLong
  | notText
deriving DecidableEq, Repr

/-- The error in words. -/
def FileError.message : FileError → String
  | notFound => "No such file or directory (os error 2)"
  | notDirectory => "Not a directory (os error 20)"
  | isDirectory => "Is a directory (os error 21)"
  | nameTooLong => "File name too long (os error 36)"
  | notText => "stream did not contain valid UTF-8"

/-- The names that lead to something from the working directory. -/
abbrev Names := List String

/-- Something that a path leads to. -/
inductive Place where
  /-- In the working directory or below it. -/
  | inside (names : Names)
  /-- So many directories above the working directory. -/
  | above (levels : Nat)
  | top
deriving DecidableEq, Repr

/-- The directory that something is in. -/
def Place.up : Place → Place
  | inside [] => above 0
  | inside names => inside names.dropLast
  | above levels => above (levels + 1)
  | top => top

/-- The files below the working directory and their contents, and the directories that are there in any
case. A file implies the directories on the way to it. -/
structure FileTree where
  files : List (Names × ByteArray) := []
  directories : List Names := []

namespace FileTree

/-- The places of the files. -/
def places (t : FileTree) : List Names := t.files.map (·.1)

/-- The contents of a file. -/
def contents? (t : FileTree) (names : Names) : Option ByteArray := t.files.lookup names

/-- There is something at a place or below it. -/
def reaches (t : FileTree) (names : Names) : Bool :=
  (t.places ++ t.directories).any fun other => names.isPrefixOf other

/-- The place is one of a directory. -/
def isDirectory (t : FileTree) : Place → Bool
  | .inside [] => true
  | .inside names => (t.contents? names).isNone && t.reaches names
  | _ => true

/-- Follows one name of a path. -/
def follow (t : FileTree) (place : Place) (name : String) : Except FileError Place :=
  if !t.isDirectory place then .error .notDirectory
  else if name == "" || name == "." then .ok place
  else if name == ".." then .ok place.up
  else if 255 < name.utf8ByteSize then .error .nameTooLong
  else
    match place with
    | .inside names =>
      if t.reaches (names ++ [name]) then .ok (.inside (names ++ [name])) else .error .notFound
    | _ => .error .notFound

/-- The place that a path leads to. -/
def locate (t : FileTree) (path : String) : Except FileError Place :=
  if path.isEmpty then .error .notFound
  else if 4096 ≤ path.utf8ByteSize then .error .nameTooLong
  else
    (Path.names path).foldlM t.follow (if Path.isAbsolute path then .top else .inside [])

/-- The text of the file at a place. -/
def readAt (t : FileTree) : Place → Except FileError String
  | .inside names =>
    match t.contents? names with
    | none => .error .isDirectory
    | some bytes =>
      match String.fromUTF8? bytes with
      | none => .error .notText
      | some text => .ok text
  | _ => .error .isDirectory

/-- The text of the file that a path leads to. -/
def read (t : FileTree) (path : String) : Except FileError String := do
  t.readAt (← t.locate path)

end FileTree

end Stylesheet
