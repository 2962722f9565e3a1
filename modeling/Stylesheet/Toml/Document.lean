import Stylesheet.Toml.Number
import Stylesheet.Toml.Table
import Stylesheet.Toml.Time

/-!
# Reading TOML

A document is a table that is given line by line: keys with their values, and headers that say which table the
keys below them belong to.
-/

namespace Stylesheet.Toml

/-! ## Values -/

/-- The items of an array up to the closing bracket. Each item takes a character. -/
def itemsFrom (item : Scan Value) : Nat → Scan (List Value)
  | 0, _ => none
  | fuel + 1, s => do
    match ← skipVoid false s with
    | ']' :: s => some ([], s)
    | s =>
      let (v, s) ← item s
      match ← skipVoid false s with
      | ',' :: s =>
        let (more, s) ← itemsFrom item fuel s
        some (v :: more, s)
      | ']' :: s => some ([v], s)
      | _ => none

/-- A key with its value. -/
def pair? (item : Scan Value) : Scan (Key × Value) := fun s => do
  let (key, s) ← key? s
  let s ← expect? '=' s
  let (v, s) ← item (skipBlanks s)
  some ((key, v), s)

/-- The pairs of a table in braces up to the closing one, added to those in front of them. Each pair takes a
character. -/
def pairsFrom (item : Scan Value) : Nat → Entries → Scan Entries
  | 0, _, _ => none
  | fuel + 1, t, s => do
    let ((key, v), s) ← pair? item s
    let t ← t.insert? .closed key v
    match skipBlanks s with
    | ',' :: s => pairsFrom item fuel t s
    | '\x7d' :: s => some (t, s)
    | _ => none

/-- A table in braces, behind the opening one. It stays on its line. -/
def braces? (item : Scan Value) : Scan Entries := fun s =>
  match skipBlanks s with
  | '\x7d' :: s => some ([], s)
  | s => pairsFrom item s.length [] s

/-- A value that holds no others. -/
def scalar? : Scan Value := fun s =>
  match s with
  | 't' :: 'r' :: 'u' :: 'e' :: s => some (.boolean true, s)
  | 'f' :: 'a' :: 'l' :: 's' :: 'e' :: s => some (.boolean false, s)
  | _ =>
    ((string? s).map fun (x, s) => (.string x, s)).or
      (((time? s).map fun (x, s) => (.time x, s)).or
        (((float? s).map fun (x, s) => (.float x, s)).or
          ((integer? s).map fun (n, s) => (.integer n, s))))

/-- A value in which others lie at most so deep. -/
def value? : Nat → Scan Value
  | 0, s =>
    match s with
    | '[' :: _ => none
    | '\x7b' :: _ => none
    | s => scalar? s
  | depth + 1, s =>
    match s with
    | '[' :: s => (itemsFrom (value? depth) (s.length + 1) s).map fun (vs, s) => (.array vs, s)
    | '\x7b' :: s => (braces? (value? depth) s).map fun (t, s) => (.table .closed t, s)
    | s => scalar? s

/-! ## Lines -/

/-- What has been read, and the table that keys belong to. -/
structure Draft where
  root : Entries := []
  current : Key := []

/-- Reads a header in so many brackets. -/
def header? (brackets : Nat) : Scan Key := fun s => do
  let (key, s) ← key? (s.drop brackets)
  let s ← (List.replicate brackets ']').foldlM (fun s c => expect? c s) s
  some (key, ← endLine? s)

/-- Reads one line, which has no blanks in front. -/
def line? (t : Draft) : Scan Draft := fun s =>
  match s with
  | '[' :: '[' :: _ => do
    let (key, s) ← header? 2 s
    some ({ root := ← t.root.addTable? key, current := key }, s)
  | '[' :: _ => do
    let (key, s) ← header? 1 s
    some ({ root := ← t.root.openTable? key, current := key }, s)
  | _ =>
    match endLine? s with
    | some s => some (t, s)
    | none => do
      let ((key, v), s) ← pair? (value? maxDepth) s
      let s ← endLine? s
      let root ← Entries.within? false (fun origin t => t.insert? origin key v) t.current .header t.root
      some ({ t with root }, s)

/-- Reads line after line. Each line takes a character. -/
def linesFrom : Nat → Draft → List Char → Option Entries
  | 0, _, _ => none
  | fuel + 1, t, s =>
    match skipBlanks s with
    | [] => some t.root
    | s => do
      let (t, s) ← line? t s
      linesFrom fuel t s

/-- The table that a text stands for, if it is TOML. A byte order mark may stand in front. -/
def read? (text : String) : Option Entries :=
  let s :=
    match text.toList with
    | '\ufeff' :: s => s
    | s => s
  linesFrom (s.length + 1) {} s

end Stylesheet.Toml
