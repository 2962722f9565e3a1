import Stylesheet.Shorthand.Box

/-!
# The background shorthand

The value of `background` is a list of layers. The words of a layer can stand in any order and are told
apart by what they look like; the color stands in the last layer. A value with a gradient, with a size
behind a slash, or with a word that fits nowhere is left alone.
-/

namespace Stylesheet.Shorthand

/-- The longhands of `background`. -/
def backgroundLonghands : List String :=
  ["background-image", "background-size", "background-repeat", "background-position",
    "background-attachment", "background-clip", "background-origin", "background-color"]

/-- The words for repetition. -/
def repeatWords : List String := ["repeat", "repeat-x", "repeat-y", "no-repeat", "space", "round"]

/-- The words for attachment. -/
def attachmentWords : List String := ["scroll", "fixed", "local"]

/-- The words for a box. -/
def boxWords : List String := ["border-box", "padding-box", "content-box"]

/-- The words for a position. -/
def positionWords : List String := ["top", "center", "bottom", "left", "right"]

/-- The parts of a layer that have been told so far. -/
structure Layer where
  image : Option String := none
  repetition : List String := []
  position : List String := []
  attachment : Option String := none
  boxes : List String := []
  color : Option String := none

/-- A word that starts like a number. -/
def startsNumber (word : String) : Bool :=
  word.toList.head?.any fun c => c.isDigit || c == '-' || c == '+' || c == '.'

/-- Tells what one word of a layer is. -/
def Layer.add? (isLast : Bool) (layer : Layer) (word : String) : Option Layer :=
  let known := Text.lower word
  if !Text.hasChar word '(' && Text.hasChar word '/' then none
  else if layer.image.isNone && (Text.startsWith known "url(" || known == "none") then
    some { layer with image := some word }
  else if repeatWords.contains known then
    some { layer with repetition := layer.repetition ++ [word] }
  else if attachmentWords.contains known then some { layer with attachment := some word }
  else if boxWords.contains known then some { layer with boxes := layer.boxes ++ [word] }
  else if positionWords.contains known || startsNumber word then
    some { layer with position := layer.position ++ [word] }
  else if layer.color.isNone && isLast then some { layer with color := some word }
  else none

/-- Tells the words of a layer apart. -/
def Layer.read? (isLast : Bool) (text : String) : Option Layer :=
  (Text.words text).foldlM (Layer.add? isLast) {}

/-- Reads the layers of a value; only the last one may have a color. -/
def readLayers? : List String → Option (List Layer)
  | [] => some []
  | text :: rest =>
    match Layer.read? rest.isEmpty text with
    | none => none
    | some layer => (readLayers? rest).map (layer :: ·)

/-- The words, if there are some, as one text. -/
def joined? (words : List String) : Option String :=
  if words.isEmpty then none else some (Text.joinWith " " words)

/-- A longhand with one entry for each layer, or its initial value alone if no layer has another. -/
def layerList (layers : List Layer) (pick : Layer → Option String) (initial : String) : String :=
  let texts := layers.map fun layer => (pick layer).getD initial
  if texts.all (· == initial) then initial else Text.joinWith "," texts

/-- The longhands of a background value. -/
def dissolveBackground? (value : Value) : Option (List Declaration) :=
  let text := trimBlank value.text
  if hasGradient text || isWhole text then none
  else
    match readLayers? (Text.split ',' text) with
    | none => none
    | some [] => none
    | some layers =>
      let texts :=
        [layerList layers (·.image) "none", "auto",
          layerList layers (fun l => joined? l.repetition) "repeat",
          layerList layers (fun l => joined? l.position) "0 0",
          layerList layers (·.attachment) "scroll",
          layerList layers (fun l => (l.boxes.drop 1).head?.or l.boxes.head?) "border-box",
          layerList layers (fun l => l.boxes.head?) "padding-box",
          ((layers.getLast?).bind (·.color)).getD "transparent"]
      some ((backgroundLonghands.zip texts).map fun x => (x.1, { value with text := x.2 }))

/-! ## Gathering -/

/-- What a longhand says about a layer: its entries are used over and over. -/
def layerValue? (d : Declarations) (name : String) (index : Nat) : Option String :=
  match d.get? name with
  | none => none
  | some value =>
    let parts := Text.split ',' value.text
    parts[index % parts.length]?.map trimBlank

/-- What a longhand says about a layer, if that is not its initial value. -/
def layerWord (d : Declarations) (index : Nat) (name initial : String) : List String :=
  ((layerValue? d name index).filter (· != initial)).toList

/-- The words of one layer. -/
def layerWords (d : Declarations) (index : Nat) (image : String) (color : Option String) :
    List String :=
  let picture :=
    if image != "none" then
      image :: layerWord d index "background-repeat" "repeat"
        ++ layerWord d index "background-position" "0 0"
        ++ layerWord d index "background-attachment" "scroll"
    else []
  let origin := (layerValue? d "background-origin" index).getD "padding-box"
  let clip := (layerValue? d "background-clip" index).getD "border-box"
  let boxes :=
    if origin != "padding-box" || clip != "border-box" then
      if clip != origin then [origin, clip] else [origin]
    else []
  let words := picture ++ boxes ++ color.toList
  if words.isEmpty then ["none"] else words

/-- The value that image and color and what else is there add up to. -/
def backgroundText (d : Declarations) (image color : String) : String :=
  let images := (Text.split ',' image).map trimBlank
  let images := if images.isEmpty then ["none"] else images
  let layers := images.zipIdx.map fun (image, index) =>
    let last := index + 1 == images.length && color != "transparent"
    Text.joinWith " " (layerWords d index image (if last then some color else none))
  Text.joinWith "," layers

/-- Gathers the longhands of `background`, if image and color are there and all of them are equally
important and can be told apart. -/
def gatherBackground? (d : Declarations) : Option Declarations :=
  if d.contains "background" then none
  else
    match d.get? "background-image", d.get? "background-color" with
    | some image, some color =>
      let present := backgroundLonghands.filterMap d.get?
      match agreedImportance? present with
      | none => none
      | some important =>
        if present.any fun v => hasGradient v.text || isWhole v.text then none
        else if (d.get? "background-size").any (·.text != "auto") then none
        else if 1 < (Text.split ',' color.text).length then none
        else
          some (gather d backgroundLonghands "background"
            ⟨backgroundText d image.text color.text, important⟩)
    | _, _ => none

end Stylesheet.Shorthand
