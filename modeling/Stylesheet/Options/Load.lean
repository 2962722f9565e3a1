import Stylesheet.Options
import Stylesheet.Toml.Document

/-!
# Options in TOML

Each option has a key of its own, and options that are not given keep their defaults. Other keys do not matter.
A choice is given by its name, as a string or as the only key of a table, with nothing in it: an empty table
or an empty array stands behind the key.
-/

namespace Stylesheet

/-- Why options cannot be loaded. -/
inductive OptionsError where
  /-- The text is not TOML. -/
  | notToml
  /-- The value of a key does not fit. -/
  | badValue (key : String)
deriving DecidableEq, Repr

namespace Options

/-! ## Names of choices -/

def selectorMerge? : String → Option SelectorMerge
  | "separate" => some .separate
  | "off" => some .off
  | "adjacent" => some .adjacent
  | "all" => some .all
  | _ => none

def cssLevel? : String → Option CssLevel
  | "CSS1.0" => some .css1
  | "CSS2.0" => some .css2
  | "CSS2.1" => some .css21
  | "CSS3.0" => some .css3
  | _ => none

def shorthandLevel? : String → Option ShorthandLevel
  | "off" => some .off
  | "common" => some .common
  | "font" => some .font
  | "background" => some .background
  | _ => none

def template? : String → Option Template
  | "highest" => some .highest
  | "standard" => some .standard
  | _ => none

/-! ## Values of keys -/

/-- An option that is on or off. -/
def flag (t : Toml.Entries) (key : String) (default : Bool) : Except OptionsError Bool :=
  match t.get? key with
  | none => .ok default
  | some (.boolean b) => .ok b
  | some _ => .error (.badValue key)

/-- The value holds others in general, but has none. -/
def isHollow : Toml.Value → Bool
  | .array items => items.isEmpty
  | .table _ entries => entries.isEmpty
  | .tables elements => elements.isEmpty
  | _ => false

/-- The name that a choice is given by. -/
def choiceName? : Toml.Value → Option String
  | .string name => some name
  | .table _ [(name, v)] => if isHollow v then some name else none
  | _ => none

/-- An option that is a choice. -/
def choice {α : Type} (ofName? : String → Option α) (t : Toml.Entries) (key : String) (default : α) :
    Except OptionsError α :=
  match t.get? key with
  | none => .ok default
  | some v =>
    match (choiceName? v).bind ofName? with
    | some a => .ok a
    | none => .error (.badValue key)

/-- The options that a table gives. -/
def ofTable (t : Toml.Entries) : Except OptionsError Options := do
  let d : Options := {}
  return {
    mergeSelectors := ← choice selectorMerge? t "merge-selectors" d.mergeSelectors
    cssLevel := ← choice cssLevel? t "css-level" d.cssLevel
    discardInvalidProperties := ← flag t "discard-invalid-properties" d.discardInvalidProperties
    discardInvalidSelectors := ← flag t "discard-invalid-selectors" d.discardInvalidSelectors
    lowercaseSelectors := ← flag t "lowercase-selectors" d.lowercaseSelectors
    convertUnit := ← flag t "convert-unit" d.convertUnit
    preserveCss := ← flag t "preserve-css" d.preserveCss
    removeBackslash := ← flag t "remove-backslash" d.removeBackslash
    optimiseShorthands := ← choice shorthandLevel? t "optimise-shorthands" d.optimiseShorthands
    preserveComments := ← flag t "preserve-comments" d.preserveComments
    template := ← choice template? t "template" d.template }

/-- The options that a text gives. -/
def ofToml (text : String) : Except OptionsError Options :=
  match Toml.read? text with
  | none => .error .notToml
  | some t => ofTable t

end Options

end Stylesheet
