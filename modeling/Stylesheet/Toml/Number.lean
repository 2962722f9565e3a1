import Stylesheet.Decimal.Power
import Stylesheet.Toml.Text

/-!
# Numbers of TOML

Integers have 64 bits and may be written with another base than ten. Floating-point numbers are kept as they
are written; one that is too large is refused. Single underscores may stand between digits.
-/

namespace Stylesheet.Toml

/-- Digits behind a first one, with single underscores between them. -/
def moreDigits (isDigit : Char → Bool) : List Char → Option (List Char × List Char)
  | '_' :: c :: s =>
    if isDigit c then (moreDigits isDigit s).map fun (ds, s) => (c :: ds, s) else none
  | c :: s =>
    if isDigit c then (moreDigits isDigit s).map fun (ds, s) => (c :: ds, s)
    else if c == '_' then none
    else some ([], c :: s)
  | [] => some ([], [])

/-- Digits with single underscores between them, without these. -/
def digits? (isDigit : Char → Bool) : Scan (List Char)
  | c :: s =>
    if isDigit c then (moreDigits isDigit s).map fun (ds, s) => (c :: ds, s) else none
  | [] => none

/-- The digits of a decimal integer. A zero in front is only for zero itself. -/
def decimalDigits? : Scan (List Char)
  | '0' :: s => some (['0'], s)
  | s => digits? Char.isDigit s

/-- The number that digits stand for. -/
def ofDigits (base : Nat) (ds : List Char) : Nat :=
  ds.foldl (fun n c => base * n + (hexValue? c).getD 0) 0

/-- A sign, if there is one, and whether it is a minus. -/
def sign : List Char → Bool × List Char
  | '-' :: s => (true, s)
  | '+' :: s => (false, s)
  | s => (false, s)

/-- An integer of another base than ten, which has no sign. -/
def based? (base : Nat) (isDigit : Char → Bool) : Scan Int := fun s => do
  let (ds, s) ← digits? isDigit s
  let n := ofDigits base ds
  if n < Decimal.twoPow 63 then some ((n : Int), s) else none

/-- An integer. -/
def integer? : Scan Int
  | '0' :: 'x' :: s => based? 16 (fun c => (hexValue? c).isSome) s
  | '0' :: 'o' :: s => based? 8 (fun c => '0' ≤ c && c ≤ '7') s
  | '0' :: 'b' :: s => based? 2 (fun c => c == '0' || c == '1') s
  | s => do
    let (negative, s) := sign s
    let (ds, s) ← decimalDigits? s
    let n := ofDigits 10 ds
    if negative then if n ≤ Decimal.twoPow 63 then some (-(n : Int), s) else none
    else if n < Decimal.twoPow 63 then some ((n : Int), s) else none

/-! ## Floating-point numbers -/

/-- The exponent of a number, if one is written. -/
def exponent? : Scan Int
  | c :: s =>
    if c == 'e' || c == 'E' then do
      let (negative, s) := sign s
      let (ds, s) ← digits? Char.isDigit s
      let n := ofDigits 10 ds
      some (if negative then -(n : Int) else n, s)
    else none
  | [] => none

/-- The digits behind the point, if there is a point. -/
def fraction? : Scan (List Char)
  | '.' :: s => digits? Char.isDigit s
  | _ => none

/-- A number of these digits, with so many powers of ten on it, is rounded to infinity in 64 bits. The number
of its digits in front of the point decides unless it is that of the largest number. -/
def isTooLarge (ds : List Char) (exponent : Int) : Bool :=
  let ds := ds.dropWhile (· == '0')
  let size := (ds.length : Int) + exponent
  if ds.isEmpty || size < 309 then false
  else if 309 < size then true
  else
    let n := ofDigits 10 ds
    let bound := Decimal.twoPow 1024 - Decimal.twoPow 970
    if 0 ≤ exponent then bound ≤ n * Decimal.tenPow exponent.toNat
    else bound * Decimal.tenPow (-exponent).toNat ≤ n

/-- A number with a point or an exponent. Only numbers above zero can be too large. -/
def decimal? : Scan Unit := fun s => do
  let (negative, s) := sign s
  let (whole, s) ← decimalDigits? s
  let (ds, exponent, s) ←
    match fraction? s with
    | some (fraction, s) =>
      let (e, s) := (exponent? s).getD (0, s)
      some (whole ++ fraction, e - fraction.length, s)
    | none => (exponent? s).map fun (e, s) => (whole, e, s)
  if !negative && isTooLarge ds exponent then none else some ((), s)

/-- Infinity, or what is not a number. -/
def special? : Scan Unit := fun s =>
  match (sign s).2 with
  | 'i' :: 'n' :: 'f' :: s => some ((), s)
  | 'n' :: 'a' :: 'n' :: s => some ((), s)
  | _ => none

/-- A floating-point number, as it is written. -/
def float? : Scan String := fun s =>
  ((decimal? s).or (special? s)).map fun (_, rest) =>
    (String.ofList (s.take (s.length - rest.length)), rest)

end Stylesheet.Toml
