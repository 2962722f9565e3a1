import Stylesheet.Shorthand.Box

/-!
# The font shorthand

The value of `font` starts with words for style, variant and weight in any order, goes on with the size,
to which the line height may be put with a slash, and ends with the families. Size and family have to be
there; what else is missing has its initial value.
-/

namespace Stylesheet.Shorthand

/-- The words for a weight. -/
def fontWeights : List String :=
  ["bold", "bolder", "lighter", "100", "200", "300", "400", "500", "600", "700", "800", "900"]

/-- The words for a style. -/
def fontStyles : List String := ["italic", "oblique"]

/-- The words for a size. -/
def fontSizes : List String :=
  ["xx-small", "x-small", "small", "medium", "large", "x-large", "xx-large", "xxx-large", "smaller",
    "larger"]

/-- The longhands of `font`, in the order of the shorthand. -/
def fontLonghands : List String :=
  ["font-style", "font-variant", "font-weight", "font-size", "line-height", "font-family"]

/-- The parts of a font value that have been told so far. -/
structure FontParts where
  style : Option String := none
  variant : Option String := none
  weight : Option String := none
  size : Option String := none
  lineHeight : Option String := none
  family : List String := []
  /-- A slash has been read, and the next word is the line height. -/
  slashed : Bool := false

/-- A word in small letters that starts like a size. -/
def looksLikeSize (word : String) : Bool :=
  word.toList.head?.any (fun c => c.isDigit || c == '.') || Text.startsWith word "calc("
    || fontSizes.contains word

/-- The texts in front of the first slash and behind it. -/
def cutSlash? (word : String) : Option (String × String) :=
  match word.toList.dropWhile (· != '/') with
  | _ :: behind => some (String.ofList (word.toList.takeWhile (· != '/')), String.ofList behind)
  | [] => none

/-- Takes a keyword in front of the size. Of each kind only one is taken. -/
def FontParts.tell? (f : FontParts) (word : String) : Option FontParts :=
  let known := Text.lower word
  if known == "normal" then some f
  else if f.weight.isNone && fontWeights.contains known then some { f with weight := some word }
  else if f.variant.isNone && known == "small-caps" then some { f with variant := some word }
  else if f.style.isNone && fontStyles.contains known then some { f with style := some word }
  else none

/-- Takes the size, with what stands behind a slash in it. -/
def FontParts.addSize (f : FontParts) (word : String) : FontParts :=
  match cutSlash? word with
  | none => { f with size := some word }
  | some (size, height) =>
    if height.isEmpty then { f with size := some size, slashed := true }
    else { f with size := some size, lineHeight := some height }

/-- Takes a word behind the size: the line height, if a slash is in front of it, or a word of the family. -/
def FontParts.addBehind (f : FontParts) (word : String) : FontParts :=
  if f.slashed then { f with lineHeight := some word, slashed := false }
  else if f.family.isEmpty && f.lineHeight.isNone && Text.startsWith word "/" then
    if word == "/" then { f with slashed := true }
    else { f with lineHeight := Text.dropStart? word "/" }
  else { f with family := f.family ++ [word] }

/-- Tells what one word of a font value is. -/
def FontParts.add? (f : FontParts) (word : String) : Option FontParts :=
  if f.size.isSome then some (f.addBehind word)
  else
    match f.tell? word with
    | some told => some told
    | none => if looksLikeSize (Text.lower word) then some (f.addSize word) else none

/-- Tells the parts of a font value apart, word by word. -/
def FontParts.read? (words : List String) : Option FontParts := words.foldlM FontParts.add? {}

/-- The first family: one of several words gets quotes, unless it starts with one. -/
def firstFamily (words : List String) : String :=
  let joined := Text.joinWith " " words
  let quoted := (words.head?.bind (·.toList.head?)).any fun c => c == '"' || c == '\''
  if 1 < words.length && !quoted then "\"" ++ joined ++ "\"" else joined

/-- The longhands of a font value. -/
def dissolveFont? (value : Value) : Option (List Declaration) :=
  let text := trimBlank value.text
  if isWhole text then none
  else
    match Text.split ',' text with
    | [] => none
    | head :: families =>
      match FontParts.read? (Text.words head) with
      | none => none
      | some f =>
        match f.size with
        | none => none
        | some size =>
          if f.family.isEmpty then none
          else
            let family := families.foldl (fun s t => s ++ "," ++ trimBlank t) (firstFamily f.family)
            let texts :=
              [f.style.getD "normal", f.variant.getD "normal", f.weight.getD "normal", size,
                f.lineHeight.getD "normal", family]
            some ((fontLonghands.zip texts).map fun x => (x.1, { value with text := x.2 }))

/-! ## Gathering -/

/-- What one longhand adds to the value of `font`. A line height goes with the size. -/
def fontWords (d : Declarations) (name : String) : List String :=
  match d.get? name with
  | none => []
  | some value =>
    if name == "line-height" then []
    else if name == "font-variant" && value.text != "small-caps" then []
    else if name == "font-size" then
      if value.text.isEmpty then []
      else
        match d.get? "line-height" with
        | some height =>
          if height.text != "normal" then [value.text ++ "/" ++ height.text] else [value.text]
        | none => [value.text]
    else if name == "font-family" then
      if value.text.isEmpty then [] else [value.text]
    else if value.text == "normal" then []
    else [value.text]

/-- The variant cannot be part of `font` and has to stand behind it. -/
def keepsVariant (d : Declarations) : Bool :=
  (d.get? "font-variant").any fun v => v.text != "small-caps" && v.text != "normal"

/-- Gathers the longhands of `font`, if size and family are there and all of them are equally important
and can be told apart. -/
def gatherFont? (d : Declarations) : Option Declarations :=
  if d.contains "font" || !d.contains "font-size" || !d.contains "font-family" then none
  else
    let present := fontLonghands.filterMap d.get?
    match agreedImportance? present with
    | none => none
    | some important =>
      if present.any (isWhole ·.text) then none
      else
        let text := Text.joinWith " " (fontLonghands.flatMap (fontWords d))
        let place := firstPlace d fontLonghands
        if keepsVariant d then
          let gathered :=
            (eraseAll d (fontLonghands.filter (· != "font-variant"))).insertAt place "font"
              ⟨text, important⟩
          match gathered.get? "font-variant" with
          | some variant => some (gathered.insertAt (place + 1) "font-variant" variant)
          | none => some gathered
        else some ((eraseAll d fontLonghands).insertAt place "font" ⟨text, important⟩)

end Stylesheet.Shorthand
