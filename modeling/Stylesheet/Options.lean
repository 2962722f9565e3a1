/-!
# Options of a run

What is to be done with a stylesheet: which parts are improved and how far, what is discarded, and how
the result is laid out.
-/

namespace Stylesheet

/-- The level of the language a stylesheet is checked against. -/
inductive CssLevel where
  | css1
  | css2
  | css21
  | css3
deriving DecidableEq, Repr

/-- The name of a level as it is reported. -/
def CssLevel.name : CssLevel → String
  | css1 => "CSS1.0"
  | css2 => "CSS2.0"
  | css21 => "CSS2.1"
  | css3 => "CSS3.0"

/-- How far shorthand properties are put together. Each level includes the ones before it. -/
inductive ShorthandLevel where
  | off
  | common
  | font
  | background
deriving DecidableEq, Repr

namespace ShorthandLevel

/-- The place of a level in their order. -/
def rank : ShorthandLevel → Nat
  | off => 0
  | common => 1
  | font => 2
  | background => 3

/-- The level includes another one. -/
def includes (l m : ShorthandLevel) : Bool := m.rank ≤ l.rank

end ShorthandLevel

/-- What is done with selectors that could share a block. -/
inductive SelectorMerge where
  /-- Grouped selectors are taken apart. -/
  | separate
  | off
  /-- Neighbours with equal declarations are grouped. -/
  | adjacent
  /-- Blocks of one name and selectors with equal declarations are put together everywhere. -/
  | all
deriving DecidableEq, Repr

/-- How the result is laid out. -/
inductive Template where
  /-- As short as possible. -/
  | highest
  /-- One declaration a line, indented. -/
  | standard
deriving DecidableEq, Repr

/-- The options of a run. -/
structure Options where
  mergeSelectors : SelectorMerge := .off
  cssLevel : CssLevel := .css3
  discardInvalidProperties : Bool := false
  discardInvalidSelectors : Bool := false
  lowercaseSelectors : Bool := false
  convertUnit : Bool := false
  preserveCss : Bool := false
  removeBackslash : Bool := true
  optimiseShorthands : ShorthandLevel := .common
  preserveComments : Bool := false
  template : Template := .highest
deriving DecidableEq, Repr

end Stylesheet
