/-!
# White space of any script

The 25 characters with the White_Space property. The check of selectors and the search for import rules
use this wider class; the layout of a stylesheet itself knows five of these characters only.
-/

namespace Stylesheet.Text

/-- The ranges of the white space characters, ascending. -/
def blankRanges : List (Nat × Nat) :=
  [(0x09, 0x0D), (0x20, 0x20), (0x85, 0x85), (0xA0, 0xA0), (0x1680, 0x1680), (0x2000, 0x200A),
    (0x2028, 0x2029), (0x202F, 0x202F), (0x205F, 0x205F), (0x3000, 0x3000)]

/-- The code lies in one of the ranges. -/
def inRanges (ranges : List (Nat × Nat)) (code : Nat) : Bool :=
  ranges.any fun r => r.1 ≤ code && code ≤ r.2

/-- A white space character of any script. -/
def isBlank (c : Char) : Bool := inRanges blankRanges c.toNat

end Stylesheet.Text
