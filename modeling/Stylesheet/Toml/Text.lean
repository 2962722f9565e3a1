/-!
# Lines, keys and strings of TOML

The readers of this module take the characters they are given from the front. They answer what they have read
with the characters that are left, or nothing if the text is not as it has to be.

A text may hold tabs and everything else that is not a control character. Lines end with a line feed, which a
carriage return may precede; a carriage return is nowhere else.
-/

namespace Stylesheet.Toml

/-- Reads something from the front of a text and answers it with what is left. -/
abbrev Scan (α : Type) := List Char → Option (α × List Char)

/-! ## Between the lines -/

def isBlank (c : Char) : Bool := c == ' ' || c == '\t'

/-- Not a control character, or a tab. -/
def isPlain (c : Char) : Bool := c == '\t' || (0x20 ≤ c.toNat && c.toNat ≤ 0x7e) || 0x80 ≤ c.toNat

def skipBlanks (s : List Char) : List Char := s.dropWhile isBlank

/-- What follows the end of a line. -/
def newline? : List Char → Option (List Char)
  | '\n' :: s => some s
  | '\r' :: '\n' :: s => some s
  | _ => none

/-- Drops a comment, up to the end of the line. -/
def skipComment : List Char → List Char
  | '#' :: s => s.dropWhile isPlain
  | s => s

/-- What follows a line on which nothing but a comment is left. The last line needs no end. -/
def endLine? (s : List Char) : Option (List Char) :=
  match skipComment (skipBlanks s) with
  | [] => some []
  | s => newline? s

/-- Drops blanks and ends of lines. -/
def skipSpace : List Char → List Char
  | '\r' :: '\n' :: s => skipSpace s
  | c :: s => if isBlank c || c == '\n' then skipSpace s else c :: s
  | [] => []

/-- Drops blanks, ends of lines and comments. -/
def skipVoid (inComment : Bool) : List Char → Option (List Char)
  | '\r' :: '\n' :: s => skipVoid false s
  | '\n' :: s => skipVoid false s
  | c :: s =>
    if inComment then if isPlain c then skipVoid true s else none
    else if isBlank c then skipVoid false s
    else if c == '#' then skipVoid true s
    else some (c :: s)
  | [] => if inComment then none else some []

/-! ## Strings -/

def hexValue? (c : Char) : Option Nat :=
  if '0' ≤ c ∧ c ≤ '9' then some (c.toNat - '0'.toNat)
  else if 'a' ≤ c ∧ c ≤ 'f' then some (c.toNat - 'a'.toNat + 10)
  else if 'A' ≤ c ∧ c ≤ 'F' then some (c.toNat - 'A'.toNat + 10)
  else none

/-- The character whose number is written in so many hexadecimal digits. -/
def codePoint? (digits : Nat) : Scan Char := fun s => do
  let values ← (s.take digits).mapM hexValue?
  let n := values.foldl (fun n d => 16 * n + d) 0
  if values.length = digits ∧ n.isValidChar then some (Char.ofNat n, s.drop digits) else none

/-- The character that the text behind a backslash stands for. -/
def escape? : Scan Char
  | 'b' :: s => some ('\x08', s)
  | 'f' :: s => some ('\x0c', s)
  | 'n' :: s => some ('\n', s)
  | 'r' :: s => some ('\r', s)
  | 't' :: s => some ('\t', s)
  | '"' :: s => some ('"', s)
  | '\\' :: s => some ('\\', s)
  | 'u' :: s => codePoint? 4 s
  | 'U' :: s => codePoint? 8 s
  | _ => none

/-- The rest of a string in double quotes. Each step takes a character, which bounds their number. -/
def basicFrom : Nat → Scan (List Char)
  | 0, _ => none
  | _ + 1, [] => none
  | _ + 1, '"' :: s => some ([], s)
  | fuel + 1, '\\' :: s => do
    let (c, s) ← escape? s
    let (more, s) ← basicFrom fuel s
    some (c :: more, s)
  | fuel + 1, c :: s =>
    if isPlain c then (basicFrom fuel s).map fun (more, s) => (c :: more, s) else none

/-- The rest of a string in single quotes. Nothing is escaped in it. -/
def literal? : Scan (List Char) := fun s =>
  match s.dropWhile fun c => isPlain c && c != '\'' with
  | '\'' :: rest => some (s.takeWhile fun c => isPlain c && c != '\'', rest)
  | _ => none

/-- How many quotes a text starts with. -/
def quoteCount (q : Char) (s : List Char) : Nat := (s.takeWhile (· == q)).length

/-- The rest of a string in three quotes. Fewer than three quotes belong to the string, also right in front of
those that end it. In double quotes backslashes escape, and one at the end of a line joins it with what
follows. -/
def multilineFrom (q : Char) : Nat → Scan (List Char)
  | 0, _ => none
  | _ + 1, [] => none
  | fuel + 1, c :: s =>
    if c == q then
      let n := quoteCount q (c :: s)
      let kept := if n < 3 then n else min (n - 3) 2
      if n < 3 then
        (multilineFrom q fuel ((c :: s).drop n)).map fun (more, s) =>
          (List.replicate kept q ++ more, s)
      else some (List.replicate kept q, (c :: s).drop (kept + 3))
    else if c == '\\' && q == '"' then
      match newline? (skipBlanks s) with
      | some s => multilineFrom q fuel (skipSpace s)
      | none => do
        let (c, s) ← escape? s
        let (more, s) ← multilineFrom q fuel s
        some (c :: more, s)
    else
      match newline? (c :: s) with
      | some s => (multilineFrom q fuel s).map fun (more, s) => ('\n' :: more, s)
      | none =>
        if isPlain c then (multilineFrom q fuel s).map fun (more, s) => (c :: more, s) else none

/-- A string on one line. -/
def lineString? : Scan String
  | '"' :: s => (basicFrom (s.length + 1) s).map fun (cs, s) => (String.ofList cs, s)
  | '\'' :: s => (literal? s).map fun (cs, s) => (String.ofList cs, s)
  | _ => none

/-- A string. A line that ends right behind three quotes is not part of it. -/
def string? : Scan String := fun s =>
  match s with
  | q :: _ =>
    if (q == '"' || q == '\'') && 3 ≤ quoteCount q s then
      let body := (newline? (s.drop 3)).getD (s.drop 3)
      (multilineFrom q (body.length + 1) body).map fun (cs, s) => (String.ofList cs, s)
    else lineString? s
  | [] => none

/-! ## Keys -/

/-- A key that leads through tables, outermost first. -/
abbrev Key := List String

/-- No key and no value lies deeper than this. -/
def maxDepth : Nat := 79

/-- A character of a key without quotes. -/
def isKeyChar (c : Char) : Bool := c.isAlphanum || c == '-' || c == '_'

/-- One part of a key. -/
def keyPart? : Scan String := fun s =>
  match s.takeWhile isKeyChar with
  | [] => lineString? s
  | cs => some (String.ofList cs, s.dropWhile isKeyChar)

/-- The parts of a key with dots between them. Each part takes a character. -/
def keyFrom : Nat → Scan Key
  | 0, _ => none
  | fuel + 1, s => do
    let (part, s) ← keyPart? (skipBlanks s)
    match skipBlanks s with
    | '.' :: s =>
      let (more, s) ← keyFrom fuel s
      some (part :: more, s)
    | s => some ([part], s)

/-- A key, with the blanks around it. -/
def key? : Scan Key := fun s => do
  let (key, s) ← keyFrom s.length s
  if key.length ≤ maxDepth then some (key, s) else none

end Stylesheet.Toml
