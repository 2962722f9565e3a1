import Stylesheet.Options

/-!
# Known properties and the levels that define them

A property is known if some level of the language defines it. Most are defined from some level on; a few
were dropped in level 2.1 and taken up again.
-/

namespace Stylesheet.Property

/-- The properties of every level. -/
def always : List String :=
  ["background", "background-color", "background-image", "background-repeat",
    "background-attachment", "background-position", "border", "border-top", "border-right",
    "border-bottom", "border-left", "border-color", "border-style", "border-width",
    "border-top-width", "border-right-width", "border-left-width", "border-bottom-width", "clear",
    "clip", "color", "display", "float", "font", "font-family", "font-style", "font-variant",
    "font-weight", "font-size", "height", "left", "line-height", "list-style", "list-style-type",
    "list-style-image", "list-style-position", "margin", "margin-top", "margin-right",
    "margin-bottom", "margin-left", "overflow", "padding", "padding-top", "padding-right",
    "padding-bottom", "padding-left", "page-break-before", "page-break-after", "position", "top",
    "text-indent", "text-align", "text-decoration", "letter-spacing", "word-spacing",
    "text-transform", "white-space", "vertical-align", "visibility", "width", "z-index"]

/-- The properties of every level but the first. -/
def fromLevel2 : List String :=
  ["border-top-color", "border-bottom-color", "border-left-color", "border-right-color",
    "border-top-style", "border-right-style", "border-left-style", "border-bottom-style",
    "border-collapse", "border-spacing", "bottom", "caption-side", "content", "counter-reset",
    "counter-increment", "cursor", "empty-cells", "direction", "max-height", "max-width",
    "min-height", "min-width", "orphans", "outline", "outline-width", "outline-style",
    "outline-color", "page-break-inside", "quotes", "right", "speak-header", "table-layout",
    "unicode-bidi", "widows", "volume", "speak", "pause", "pause-before", "pause-after", "cue",
    "cue-before", "cue-after", "play-during", "azimuth", "elevation", "speech-rate",
    "voice-family", "pitch", "pitch-range", "stress", "richness", "speak-punctuation",
    "speak-numeral"]

/-- The properties of levels 2 and 3 that level 2.1 dropped. -/
def levels2And3 : List String :=
  ["font-stretch", "font-size-adjust", "marker-offset", "page", "text-shadow"]

/-- The properties of level 1 that level 2.1 dropped and level 3 took up again. -/
def notLevel21 : List String :=
  ["marks", "size"]

/-- The properties that level 3 added. -/
def level3Only : List String :=
  ["animation", "animation-name", "animation-duration", "animation-timing-function",
    "animation-iteration-count", "animation-direction", "animation-play-state", "animation-delay",
    "animation-fill-mode", "background-size", "background-origin", "background-clip",
    "border-radius", "border-top-left-radius", "border-top-right-radius",
    "border-bottom-right-radius", "border-bottom-left-radius", "border-image", "box-shadow",
    "box-sizing", "src", "unicode-range", "font-display", "font-variant-east-asian",
    "font-variant-numeric", "font-variant-ligatures", "font-feature-settings",
    "font-language-override", "font-kerning", "opacity", "overflow-x", "overflow-y",
    "overflow-wrap", "word-wrap", "text-overflow", "outline-offset", "resize", "pointer-events",
    "user-select", "image-rendering", "image-resolution", "image-orientation", "object-fit",
    "object-position", "transform", "transform-origin", "transform-style", "perspective",
    "perspective-origin", "backface-visibility", "transition", "transition-delay",
    "transition-duration", "transition-property", "transition-timing-function", "flex",
    "flex-basis", "flex-direction", "flex-flow", "flex-grow", "flex-shrink", "flex-wrap", "order",
    "align-content", "align-items", "align-self", "justify-content", "justify-items",
    "justify-self", "gap", "row-gap", "column-gap", "grid", "grid-area", "grid-column", "grid-row",
    "grid-template", "grid-template-areas", "grid-template-columns", "grid-template-rows",
    "columns", "column-count", "column-width", "voice-pitch", "rest", "rest-before", "rest-after"]

/-- The levels that define a property. -/
structure Levels where
  css1 : Bool
  css2 : Bool
  css21 : Bool
  css3 : Bool
deriving DecidableEq, Repr

/-- The level is one of them. -/
def Levels.contains (l : Levels) : CssLevel → Bool
  | .css1 => l.css1
  | .css2 => l.css2
  | .css21 => l.css21
  | .css3 => l.css3

/-- The levels that define a property, if it is known. -/
def levels? (name : String) : Option Levels :=
  if always.contains name then some ⟨true, true, true, true⟩
  else if fromLevel2.contains name then some ⟨false, true, true, true⟩
  else if level3Only.contains name then some ⟨false, false, false, true⟩
  else if levels2And3.contains name then some ⟨false, true, false, true⟩
  else if notLevel21.contains name then some ⟨true, true, false, true⟩
  else none

/-- Some level defines the property. -/
def isKnown (name : String) : Bool := (levels? name).isSome

/-- The given level defines the property. -/
def isValid (name : String) (level : CssLevel) : Bool := (levels? name).any (·.contains level)

/-! ## Properties by the kind of their values -/

/-- The properties that measure lengths. -/
def lengthProperties : List String :=
  ["background", "background-position", "border", "border-top", "border-right", "border-bottom",
    "border-left", "border-width", "border-top-width", "border-right-width", "border-left-width",
    "border-bottom-width", "bottom", "border-spacing", "font-size", "height", "left", "margin",
    "margin-top", "margin-right", "margin-bottom", "margin-left", "max-height", "max-width",
    "min-height", "min-width", "outline", "outline-width", "padding", "padding-top",
    "padding-right", "padding-bottom", "padding-left", "right", "top", "text-indent",
    "letter-spacing", "word-spacing", "width"]

/-- A number other than zero in a value of the property needs a unit. -/
def requiresUnit (name : String) : Bool := lengthProperties.contains name

/-- The properties whose value is one color. -/
def colorProperties : List String :=
  ["color", "background-color", "border-color", "border-top-color", "border-right-color",
    "border-bottom-color", "border-left-color", "outline-color"]

/-- The value of the property is a color. -/
def isColor (name : String) : Bool := colorProperties.contains name

end Stylesheet.Property
