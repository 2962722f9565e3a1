import Stylesheet.Decimal.Power

/-!
# Binary numbers of 53 bits

Units are converted in binary arithmetic of double precision. Every operation is the exact result,
rounded once to the nearest representable number, a tie going to the even one. The exact results are
quotients of natural numbers, so one rounding function is all that is needed. The sign plays no part in
rounding and is left out: these are magnitudes.
-/

namespace Stylesheet.Decimal

/-- A magnitude in double precision. -/
inductive Magnitude where
  /-- The number `m * 2 ^ q`, where `m` has at most 53 bits. -/
  | finite (m : Nat) (q : Int)
  /-- Above the largest representable number. -/
  | infinite
deriving DecidableEq, Repr

namespace Magnitude

/-- The exponents of the smallest and of the largest unit in the last place. -/
def minExp : Int := -1074

def maxExp : Int := 971

/-- A quotient rounded to a natural number, a tie going to the even one. -/
def roundEven (num den : Nat) : Nat :=
  let q := num / den
  let twice := 2 * (num % den)
  if twice < den then q else if den < twice then q + 1 else if q % 2 == 0 then q else q + 1

/-- The quotient times two to the power `-q`, as a quotient. -/
def scaleDown (num den : Nat) (q : Int) : Nat × Nat := (num * twoPow (-q).toNat, den * twoPow q.toNat)

/-- The exponent of the highest bit of a positive quotient. -/
def highBit (num den : Nat) : Int :=
  let k : Int := (num.log2 : Int) - (den.log2 : Int)
  let (n, d) := scaleDown num den k
  if n < d then k - 1 else k

/-- The representable number nearest to a quotient. -/
def ofRatio (num den : Nat) : Magnitude :=
  if num == 0 then finite 0 minExp
  else
    let q := max (highBit num den - 52) minExp
    let (n, d) := scaleDown num den q
    let m := roundEven n d
    let (m, q) := if m == twoPow 53 then (twoPow 52, q + 1) else (m, q)
    if maxExp < q then infinite else finite m q

/-- A finite magnitude as a quotient. -/
def ratio (m : Nat) (q : Int) : Nat × Nat := (m * twoPow q.toNat, twoPow (-q).toNat)

/-- Multiplication by a natural number. -/
def times (x : Magnitude) (n : Nat) : Magnitude :=
  match x with
  | finite m q => let (a, b) := ratio m q; ofRatio (a * n) b
  | infinite => infinite

/-- Division by a natural number. -/
def dividedBy (x : Magnitude) (n : Nat) : Magnitude :=
  match x with
  | finite m q => let (a, b) := ratio m q; ofRatio a (b * n)
  | infinite => infinite

/-- The nearest whole number, a tie going up. -/
def round (x : Magnitude) : Magnitude :=
  match x with
  | finite m q => let (a, b) := ratio m q; ofRatio ((2 * a + b) / (2 * b)) 1
  | infinite => infinite

end Magnitude

end Stylesheet.Decimal
