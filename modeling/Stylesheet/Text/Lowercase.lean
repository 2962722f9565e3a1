import Stylesheet.Text.Blank
import Stylesheet.Text.Lowercase.Table

/-!
# Small letters of any script

Capital letters of every script are mapped to small ones. One letter depends on where it stands: a capital
sigma at the end of a word becomes a final sigma. It ends a word if a letter comes before it and none after
it, marks that belong to a letter being passed over on both sides.
-/

namespace Stylesheet.Text

namespace Lowercase

/-- The small letter of a code, or the code itself. -/
def codeOf (code : Nat) : Nat :=
  match runs.find? fun r => r.first ≤ code && code ≤ r.last && (code - r.first) % r.step == 0 with
  | some r => ((code : Int) + r.shift).toNat
  | none => code

/-- The first character that is not passed over has a case. -/
def letterComes (s : List Char) : Bool :=
  ((s.dropWhile fun c => inRanges ignoredRanges c.toNat).head?).any fun c =>
    inRanges casedRanges c.toNat

/-- The small letters of one character, between what comes before it, nearest first, and after it. -/
def ofChar (before : List Char) (c : Char) (after : List Char) : List Char :=
  if c.toNat < 0x80 then [c.toLower]
  else if c == 'Σ' then [if letterComes before && !letterComes after then 'ς' else 'σ']
  else if c == 'İ' then ['i', '\u0307']
  else [Char.ofNat (codeOf c.toNat)]

/-- The small letters of the characters behind a place of a text. -/
def ofChars (before : List Char) : List Char → List Char
  | [] => []
  | c :: after => ofChar before c after ++ ofChars (c :: before) after

end Lowercase

/-- The text in small letters. -/
def lowercase (s : String) : String := String.ofList (Lowercase.ofChars [] s.toList)

end Stylesheet.Text
