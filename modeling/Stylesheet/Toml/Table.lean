import Stylesheet.Toml.Text

/-!
# Tables of TOML

A table maps keys to values. Each key is given once, and each table is defined in one place: tables come from
headers, from dotted keys or from braces, and how a table came about decides how it may still grow.
-/

namespace Stylesheet.Toml

/-- How a table came about. -/
inductive Origin where
  /-- By a header of its own. Only headers of tables inside it add to it from elsewhere. -/
  | header
  /-- On the way to a table with a header; it may still get one. -/
  | implied
  /-- By a dotted key. -/
  | dotted
  /-- In braces; nothing is added behind them. -/
  | closed
deriving DecidableEq, Repr

/-- A value. Numbers other than integers and times are kept as they are written. -/
inductive Value where
  | string (text : String)
  | boolean (b : Bool)
  | integer (n : Int)
  | float (source : String)
  | time (source : String)
  | array (items : List Value)
  | table (origin : Origin) (entries : List (String × Value))
  /-- Tables that share a header, in order. -/
  | tables (elements : List (List (String × Value)))

/-- The keys of a table with their values. -/
abbrev Entries := List (String × Value)

namespace Entries

def get? (t : Entries) (key : String) : Option Value := t.lookup key

/-- Gives a key that is there another value. -/
def replace (t : Entries) (key : String) (v : Value) : Entries :=
  t.map fun (k, w) => if k == key then (k, v) else (k, w)

/-- Gives a key that is not there a value. -/
def add? (t : Entries) (key : String) (v : Value) : Option Entries :=
  if (t.get? key).isSome then none else some (t ++ [(key, v)])

/-- A header, or with `dotted` a dotted key, may lead through a table. -/
def mayEnter (dotted : Bool) : Origin → Bool
  | .header => !dotted
  | .implied => true
  | .dotted => true
  | .closed => false

/-- Changes the table that a key leads to, given how it came about. Tables that are missing on the way are
made; of tables that share a header, the last one is meant. -/
def within? (dotted : Bool) (change : Origin → Entries → Option Entries) :
    Key → Origin → Entries → Option Entries
  | [], origin, t => change origin t
  | name :: rest, _, t =>
    match t.get? name with
    | none =>
      let origin := if dotted then .dotted else .implied
      (within? dotted change rest origin []).map fun inner => t ++ [(name, .table origin inner)]
    | some (.table origin inner) =>
      if mayEnter dotted origin then
        (within? dotted change rest origin inner).map fun inner => t.replace name (.table origin inner)
      else none
    | some (.tables elements) => do
      let inner ← within? dotted change rest .header (← elements.getLast?)
      some (t.replace name (.tables (elements.dropLast ++ [inner])))
    | some _ => none

/-- Adds a value under a dotted key to a table. -/
def insert? (origin : Origin) (t : Entries) (key : Key) (v : Value) : Option Entries := do
  let name ← key.getLast?
  let way := key.dropLast
  within? true (fun origin t => if (origin == .dotted) == way.isEmpty then none else t.add? name v)
    way origin t

/-- Opens the table of a header. -/
def openTable? (t : Entries) (key : Key) : Option Entries := do
  let name ← key.getLast?
  within? false (fun _ t =>
    match t.get? name with
    | none => t.add? name (.table .header [])
    | some (.table .implied inner) => some (t.replace name (.table .header inner))
    | some _ => none) key.dropLast .header t

/-- Adds a table to those that share a header. -/
def addTable? (t : Entries) (key : Key) : Option Entries := do
  let name ← key.getLast?
  within? false (fun _ t =>
    match t.get? name with
    | none => t.add? name (.tables [[]])
    | some (.tables elements) => some (t.replace name (.tables (elements ++ [[]])))
    | some _ => none) key.dropLast .header t

end Entries

end Stylesheet.Toml
