import Stylesheet.Decimal.Binary

/-!
# The fewest digits that read back

A binary number stands for an interval: the numbers nearer to it than to its neighbours. It is written
with the fewest decimal digits that lie in that interval, and of those with the ones nearest to the
number itself, a tie going up. The digits are searched for on ever finer decimal grids, each tried at the
two points next to the number, in exact arithmetic.

The digits are laid out with a point and never with an exponent.
-/

namespace Stylesheet.Decimal

/-- Compares `a * 10 ^ i` with `n * 2 ^ j`. -/
def compareScaled (a : Nat) (i : Int) (n : Nat) (j : Int) : Ordering :=
  compare (a * tenPow i.toNat * twoPow (-j).toNat) (n * twoPow j.toNat * tenPow (-i).toNat)

/-- The decimal `d * 10 ^ e` lies in the interval of `m * 2 ^ q`. The ends belong to it for even `m`. -/
def readsBack (m : Nat) (q : Int) (d : Nat) (e : Int) : Bool :=
  let low := compareScaled d e (if m == twoPow 52 then 4 * m - 1 else 4 * m - 2) (q - 2)
  let high := compareScaled d e (4 * m + 2) (q - 2)
  let even := m % 2 == 0
  (low == .gt || (even && low == .eq)) && (high == .lt || (even && high == .eq))

/-- The whole part of `m * 2 ^ q / 10 ^ e`. -/
def gridBelow (m : Nat) (q e : Int) : Nat :=
  (m * twoPow q.toNat * tenPow (-e).toNat) / (twoPow (-q).toNat * tenPow e.toNat)

/-- The point of the grid `10 ^ e` that reads back and is nearest to the number, if there is one. -/
def onGrid (m : Nat) (q e : Int) : Option Nat :=
  let d := gridBelow m q e
  match readsBack m q d e, readsBack m q (d + 1) e with
  | false, false => none
  | true, false => some d
  | false, true => some (d + 1)
  | true, true => if compareScaled (2 * d + 1) e (2 * m) q == .gt then some d else some (d + 1)

/-- An exponent with `m * 2 ^ q < 10 ^ k`, at most one too large. -/
def decimalScale (m : Nat) (q : Int) : Int := ((m.log2 + 1 : Int) + q) * 30103 / 100000 + 1

/-- The digits and the exponent of the shortest decimal of a positive number. -/
def shortest (m : Nat) (q : Int) : Nat × Int :=
  let k := decimalScale m q
  let grids := (List.range 19).map fun (n : Nat) => k - n
  match grids.findSome? fun e => (onGrid m q e).map fun d => (d, e) with
  | some found => found
  | none => (gridBelow m q (k - 19), k - 19)

/-- The text of `d * 10 ^ e` without an exponent. -/
def positional (d : Nat) (e : Int) : String :=
  let digits := Nat.toDigits 10 d
  if 0 ≤ e then String.ofList (digits ++ List.replicate e.toNat '0')
  else
    let places := (-e).toNat
    let padded := List.replicate (places + 1 - digits.length) '0' ++ digits
    let whole := padded.take (padded.length - places)
    String.ofList (whole ++ '.' :: padded.drop (padded.length - places))

/-- The text of a magnitude. -/
def Magnitude.text : Magnitude → String
  | finite m q =>
    if m == 0 then "0"
    else
      let (d, e) := shortest m q
      positional d e
  | infinite => "inf"

end Stylesheet.Decimal
