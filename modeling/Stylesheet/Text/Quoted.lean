import Stylesheet.Text.Class

/-!
# Quoted strings

A quoted string loses its quotes where its content reads the same without them, and is written with
double quotes otherwise, unless it contains a double quote itself.
-/

namespace Stylesheet.Text

/-- The text without its first and its last character. -/
def inner (s : String) : String := String.ofList (s.toList.tail.dropLast)

/-- Content with this character cannot do without quotes. -/
def needsQuotes (c : Char) : Bool := isSpace c || c == '\'' || c == '"' || c == '(' || c == ')'

/-- The string in double quotes, unless there is a double quote in it. -/
def doubleQuoted (s : String) : String := if hasChar s '"' then s else "\"" ++ inner s ++ "\""

/-- The content of the string where that is safe, and the string in double quotes otherwise. -/
def unquoted (s : String) : String :=
  let content := inner s
  if content.isEmpty || content.toList.any needsQuotes then doubleQuoted s else content

/-- The argument of a font format in double quotes, for an argument without quotes. -/
def quoteFormat? (s : String) : Option String :=
  match (dropStart? s "format(").bind (dropEnd? · ")") with
  | some name =>
    if hasChar name '"' || hasChar name '\'' then none else some ("format(\"" ++ name ++ "\")")
  | none => none

end Stylesheet.Text
