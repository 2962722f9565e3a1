/-!
# Powers of two and of ten

Binary and decimal numbers are compared and converted through these powers alone.
-/

namespace Stylesheet.Decimal

/-- The power of two with an exponent. -/
def twoPow (k : Nat) : Nat := Nat.pow 2 k

/-- The power of ten with an exponent. -/
def tenPow (k : Nat) : Nat := Nat.pow 10 k

end Stylesheet.Decimal
