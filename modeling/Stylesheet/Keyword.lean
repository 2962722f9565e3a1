import Stylesheet.Text.Class

/-!
# Keywords of values and at-rules

The units of numbers, the words that name a color, and what the body of an at-rule holds. Letters count
in either case.
-/

namespace Stylesheet.Keyword

/-! ## Units -/

/-- The units of numbers, in small letters. -/
def units : List String :=
  ["px", "in", "cm", "mm", "pt", "pc", "%", "em", "rem", "ex", "ch", "vw", "vh", "vmin", "vmax",
    "vm", "deg", "grad", "rad", "turn", "ms", "s", "khz", "hz", "fr", "gr", "dpi", "dpcm", "dppx",
    "db", "st"]

/-- A unit, in letters of either case. -/
def isUnit (s : String) : Bool := units.contains (Text.lower s)

/-! ## Colors -/

/-- The named colors. -/
def colorNames : List String :=
  ["aliceblue", "antiquewhite", "aqua", "aquamarine", "azure", "beige", "bisque", "black",
    "blanchedalmond", "blue", "blueviolet", "brown", "burlywood", "cadetblue", "chartreuse",
    "chocolate", "coral", "cornflowerblue", "cornsilk", "crimson", "cyan", "darkblue", "darkcyan",
    "darkgoldenrod", "darkgray", "darkgreen", "darkgrey", "darkkhaki", "darkmagenta",
    "darkolivegreen", "darkorange", "darkorchid", "darkred", "darksalmon", "darkseagreen",
    "darkslateblue", "darkslategray", "darkslategrey", "darkturquoise", "darkviolet", "deeppink",
    "deepskyblue", "dimgray", "dimgrey", "dodgerblue", "firebrick", "floralwhite", "forestgreen",
    "fuchsia", "gainsboro", "ghostwhite", "gold", "goldenrod", "gray", "green", "greenyellow",
    "grey", "honeydew", "hotpink", "indianred", "indigo", "ivory", "khaki", "lavender",
    "lavenderblush", "lawngreen", "lemonchiffon", "lightblue", "lightcoral", "lightcyan",
    "lightgoldenrodyellow", "lightgray", "lightgreen", "lightgrey", "lightpink", "lightsalmon",
    "lightseagreen", "lightskyblue", "lightslategray", "lightslategrey", "lightsteelblue",
    "lightyellow", "lime", "limegreen", "linen", "magenta", "maroon", "mediumaquamarine",
    "mediumblue", "mediumorchid", "mediumpurple", "mediumseagreen", "mediumslateblue",
    "mediumspringgreen", "mediumturquoise", "mediumvioletred", "midnightblue", "mintcream",
    "mistyrose", "moccasin", "navajowhite", "navy", "oldlace", "olive", "olivedrab", "orange",
    "orangered", "orchid", "palegoldenrod", "palegreen", "paleturquoise", "palevioletred",
    "papayawhip", "peachpuff", "peru", "pink", "plum", "powderblue", "purple", "rebeccapurple",
    "red", "rosybrown", "royalblue", "saddlebrown", "salmon", "sandybrown", "seagreen", "seashell",
    "sienna", "silver", "skyblue", "slateblue", "slategray", "slategrey", "snow", "springgreen",
    "steelblue", "tan", "teal", "thistle", "tomato", "turquoise", "violet", "wheat", "white",
    "whitesmoke", "yellow", "yellowgreen"]

/-- The words other than names that may stand for a color. -/
def colorWords : List String :=
  ["transparent", "currentcolor", "inherit", "initial", "unset", "revert", "none"]

/-- A word that stands for a color, in letters of either case. -/
def isColor (s : String) : Bool :=
  let word := Text.lower s
  colorNames.contains word || colorWords.contains word

/-! ## At-rules -/

/-- What stands between the braces of an at-rule. -/
inductive AtBody where
  | declarations
  | rules
deriving DecidableEq, Repr

/-- A name without the vendor mark in front of it: `-moz-document` is `document`. -/
def withoutVendor (name : List Char) : List Char :=
  match name with
  | '-' :: rest =>
    match rest.dropWhile (· != '-') with
    | _ :: bare => bare
    | [] => rest
  | _ => name

/-- The at-rules with declarations in their body. -/
def declarationRules : List String :=
  ["font-face", "page", "viewport", "counter-style", "property", "font-palette-values"]

/-- The at-rules with rules in their body. -/
def groupRules : List String :=
  ["media", "supports", "document", "keyframes", "layer", "container", "scope"]

/-- What the body of a known at-rule holds. -/
def atBody? (name : String) : Option AtBody :=
  let bare := String.ofList (withoutVendor (Text.lower name).toList)
  if declarationRules.contains bare then some .declarations
  else if groupRules.contains bare then some .rules
  else none

end Stylesheet.Keyword
