import Stylesheet.Toml.Text

/-!
# Dates and times of TOML

A date, a time of day, or both with or without an offset. They are checked against the calendar and the clock
and kept as they are written. A minute may have a leap second.
-/

namespace Stylesheet.Toml

/-- A number of exactly so many digits, within bounds. -/
def fixed? (digits low high : Nat) : Scan Nat := fun s =>
  let ds := s.take digits
  let n := ds.foldl (fun n c => 10 * n + (c.toNat - '0'.toNat)) 0
  if ds.length = digits ∧ ds.all Char.isDigit ∧ low ≤ n ∧ n ≤ high then some (n, s.drop digits)
  else none

/-- What follows a character that has to be there. -/
def expect? (c : Char) : List Char → Option (List Char)
  | d :: s => if d == c then some s else none
  | [] => none

def isLeapYear (year : Nat) : Bool := year % 4 = 0 && (year % 100 != 0 || year % 400 = 0)

def daysIn (year month : Nat) : Nat :=
  if month = 2 then if isLeapYear year then 29 else 28
  else if month = 4 || month = 6 || month = 9 || month = 11 then 30
  else 31

/-- What follows a date. -/
def date? (s : List Char) : Option (List Char) := do
  let (year, s) ← fixed? 4 0 9999 s
  let s ← expect? '-' s
  let (month, s) ← fixed? 2 1 12 s
  let s ← expect? '-' s
  let (_, s) ← fixed? 2 1 (daysIn year month) s
  some s

/-- What follows a part of a second. -/
def skipFraction (s : List Char) : List Char :=
  match s with
  | '.' :: c :: rest => if c.isDigit then rest.dropWhile Char.isDigit else s
  | _ => s

/-- What follows a time of day. -/
def clock? (s : List Char) : Option (List Char) := do
  let (_, s) ← fixed? 2 0 23 s
  let s ← expect? ':' s
  let (_, s) ← fixed? 2 0 59 s
  let s ← expect? ':' s
  let (_, s) ← fixed? 2 0 60 s
  some (skipFraction s)

/-- What follows an offset. -/
def offset? : List Char → Option (List Char)
  | 'Z' :: s => some s
  | 'z' :: s => some s
  | c :: s =>
    if c == '+' || c == '-' then do
      let (_, s) ← fixed? 2 0 23 s
      let s ← expect? ':' s
      let (_, s) ← fixed? 2 0 59 s
      some s
    else none
  | [] => none

/-- What follows a time of day behind a date, with its offset. -/
def clockOfDate? : List Char → Option (List Char)
  | c :: s =>
    if c == 'T' || c == 't' || c == ' ' then do
      let s ← clock? s
      some ((offset? s).getD s)
    else none
  | [] => none

/-- A date, a time of day or both, as it is written. -/
def time? : Scan String := fun s =>
  let rest :=
    match date? s with
    | some rest => some ((clockOfDate? rest).getD rest)
    | none => clock? s
  rest.map fun rest => (String.ofList (s.take (s.length - rest.length)), rest)

end Stylesheet.Toml
