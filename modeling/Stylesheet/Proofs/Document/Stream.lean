import Stylesheet.Proofs.Cascade
import Stylesheet.Proofs.Document.Frames
import Stylesheet.Proofs.Value.Importance
import Mathlib.Data.List.Find

/-!
# What a stream records

Where the layout of the source is kept, a document holds its tree and also the stream of what was read. This module
reads a stream on its own, as brackets: a start opens a block inside the innermost open one, an end closes that, and
everything else goes into it (`Scan`). A stream that is not well formed has no reading.

What comes out is compared to a tree by `Records`. Blocks, comments and at-rules without a body have to stand in both
in the same order. The declarations of a block are the winners among its pairs (`Gives`). A pair only has a text, and
that text shows whether the value is important unless a backslash stands in front of the mark (`telling`).
-/

namespace Stylesheet.Outline

open List Declarations

/-! ## Reading a stream as brackets -/

/-- What a stream records inside of a block. -/
inductive Item where
  | block (selector : Bool) (name : String) (pairs : List (String × String)) (items : List Item)
  | lineAt (text : String)
  | comment (text : String)

/-- A block of a stream that has been opened, with what is recorded directly inside it. -/
structure Bracket where
  selector : Bool
  name : String
  /-- The properties with the texts of their values. -/
  pairs : List (String × String) := []
  /-- The blocks, at-rules without a body and comments. -/
  items : List Item := []

namespace Bracket

/-- What stands outside of all blocks. -/
def root : Bracket := { selector := false, name := "" }

/-- The block when it is closed. -/
def item (b : Bracket) : Item := .block b.selector b.name b.pairs b.items

def put (b : Bracket) (item : Item) : Bracket := { b with items := b.items ++ [item] }

def give (b : Bracket) (property text : String) : Bracket :=
  { b with pairs := b.pairs ++ [(property, text)] }

end Bracket

/-- A place in a stream: the blocks that are open there, and the property that waits for its value. -/
structure Scan where
  inner : Bracket := .root
  /-- The blocks around the innermost one, from the inside out. -/
  outer : List Bracket := []
  property : Option String := none

namespace Scan

/-- Closes the innermost block, if it is one of the given kind. -/
def close (r : Scan) (selector : Bool) : Option Scan :=
  match r.outer with
  | [] => none
  | b :: outer => if r.inner.selector = selector then some { inner := b.put r.inner.item, outer } else none

/-- Opens a block inside the innermost one. -/
def start (r : Scan) (selector : Bool) (name : String) : Scan :=
  { inner := { selector, name }, outer := r.inner :: r.outer }

/-- One more token, if it may stand there. -/
def next (r : Scan) (t : Token) : Option Scan :=
  match r.property with
  | some property =>
    if t.kind = .value then some { r with inner := r.inner.give property t.data, property := none } else none
  | none =>
    match t.kind with
    | .selectorStart => some (r.start true t.data)
    | .atStart => some (r.start false t.data)
    | .selectorEnd => r.close true
    | .atEnd => r.close false
    | .property => some { r with property := some t.data }
    | .comment => some { r with inner := r.inner.put (.comment t.data) }
    | .lineAt => some { r with inner := r.inner.put (.lineAt t.data) }
    | .value => none

/-- What stands outside of all blocks once those still open are closed. -/
def closeAll (inner : Bracket) (outer : List Bracket) : Bracket :=
  outer.foldl (fun inner b => b.put inner.item) inner

end Scan

/-- Reads a stream from its start on. -/
def scan? (tokens : List Token) : Option Scan := tokens.foldlM Scan.next {}

/-- What a stream records. Blocks may stay open at its end, but a property has to have its value. -/
def outline? (tokens : List Token) : Option Bracket :=
  ((scan? tokens).filter (·.property.isNone)).map fun r => Scan.closeAll r.inner r.outer

theorem scan?_concat (tokens : List Token) (t : Token) : scan? (tokens ++ [t]) = (scan? tokens).bind (·.next t) := by
  unfold scan?
  rw [foldlM_append]
  simp

/-! ## Pairs and declarations -/

/-- The text ends with the mark of importance. -/
def marked (text : String) : Bool := "!important".toList.isSuffixOf text.toList

/-- No backslash stands in front of the mark, so that the text tells whether the value is important. -/
def telling (text : String) : Bool := !"\\!important".toList.isSuffixOf text.toList

/-- The texts that pairs give to a property, in order. -/
def textsOf (pairs : List (String × String)) (property : String) : List String :=
  (pairs.filter (·.1 == property)).map (·.2)

/-- The text that wins: the last one, or the last one with the mark if there is one. -/
def winningText (texts : List String) : Option String :=
  (texts.reverse.find? marked).or texts.getLast?

/-- A declaration as a pair of a stream. -/
def shown (e : Declaration) : String × String := (e.1, e.2.render)

/-- The declarations of a block are what the pairs inside it give. -/
structure Gives (pairs : List (String × String)) (ds : Declarations) : Prop where
  /-- The pairs are declarations as they are written, whose winners the block has. -/
  exists_given : ∃ entries : List Declaration, pairs = entries.map shown ∧ (∀ e ∈ entries, e.2.Honest) ∧
    ∀ property, ds.get? property = winner (given entries property)
  /-- The winner is found among the texts, if these tell which of them are important. -/
  render_get? : ∀ property, (∀ text ∈ textsOf pairs property, telling text = true) →
    (ds.get? property).map Value.render = winningText (textsOf pairs property)

/-- A text that tells has the mark if and only if the value is important. -/
theorem marked_render {v : Value} (h : v.Honest) (htelling : telling v.render = true) :
    marked v.render = v.important := by
  cases himportant : v.important with
  | true =>
    rw [marked, isSuffixOf_iff_suffix]
    refine ⟨v.text.toList, ?_⟩
    rw [Value.render, if_pos himportant, String.toList_append]
  | false =>
    have hrender : v.render = v.text := by rw [Value.render, himportant]; rfl
    rw [hrender] at htelling ⊢
    rw [marked, ← Bool.not_eq_true, isSuffixOf_iff_suffix]
    rintro ⟨rest, hrest⟩
    -- the mark of an unimportant value stands behind a backslash, and then the text does not tell
    obtain ⟨front, rfl⟩ := getLast?_eq_some_iff.mp (h himportant rest hrest.symm)
    rw [telling, Bool.not_eq_true', ← Bool.not_eq_true, isSuffixOf_iff_suffix] at htelling
    refine htelling ⟨front, ?_⟩
    rw [← hrest, append_assoc]
    rfl

/-- The winner among values is the winner among their texts. -/
theorem winningText_map_render {values : List Value} (h : ∀ v ∈ values, marked v.render = v.important) :
    winningText (values.map Value.render) = (winner values).map Value.render := by
  have hfind : values.reverse.find? (marked ∘ Value.render) = values.reverse.find? (·.important) := by
    refine find?_congr fun v hv => ?_
    exact h v (mem_reverse.mp hv)
  unfold winningText winner
  rw [← map_reverse, find?_map, hfind, getLast?_map]
  cases values.reverse.find? (·.important) <;> rfl

theorem textsOf_map_shown (entries : List Declaration) (property : String) :
    textsOf (entries.map shown) property = (given entries property).map Value.render := by
  unfold textsOf given
  rw [filter_map, map_map, map_map]
  rfl

theorem Gives.of_given (entries : List Declaration) {ds : Declarations} (honest : ∀ e ∈ entries, e.2.Honest)
    (h : ∀ property, ds.get? property = winner (given entries property)) :
    Gives (entries.map shown) ds := by
  refine ⟨⟨entries, rfl, honest, h⟩, fun property htelling => ?_⟩
  rw [textsOf_map_shown] at htelling ⊢
  rw [winningText_map_render, h property]
  intro v hv
  obtain ⟨e, he, rfl⟩ := mem_map.mp hv
  refine marked_render (honest e (mem_of_mem_filter he)) ?_
  exact htelling _ (mem_map_of_mem hv)

theorem Gives.empty : Gives [] .empty :=
  .of_given [] (by simp) fun _ => rfl

/-- One more declaration is one more pair. -/
theorem Gives.insert {pairs : List (String × String)} {ds : Declarations} (h : Gives pairs ds)
    {value : Value} (htext : value.text ≠ "") (honest : value.Honest) (property : String) :
    Gives (pairs ++ [(property, value.render)]) (ds.insert property value) := by
  obtain ⟨entries, rfl, hentries, hget⟩ := h.exists_given
  have hpairs : entries.map shown ++ [(property, value.render)] = (entries ++ [(property, value)]).map shown := by
    rw [map_append]
    rfl
  rw [hpairs]
  refine .of_given _ ?_ (get?_insert_winner hget htext)
  intro e he
  rcases mem_append.mp he with he | he
  · exact hentries e he
  · rw [mem_singleton.mp he]
    exact honest

/-! ## Items and nodes -/

/-- What a stream records is a node of a tree: of the same kind and name, with the same things in it in the same
order, and the declarations that its pairs give. -/
inductive Records : Item → Node → Prop
  | block {selector : Bool} {name : String} {kind : BlockKind} {pairs : List (String × String)}
      {ds : Declarations} {items : List Item} {children : List Node}
      (hkind : selector = (kind != .atBlock)) (hgives : Gives pairs ds)
      (hitems : List.Forall₂ Records items children) :
      Records (.block selector name pairs items) (.block name kind ds children)
  | lineAt (rule : LineAt) : Records (.lineAt rule.render) (.lineAt rule)
  | comment (text : String) : Records (.comment text) (.comment text)

/-- What a stream records of a block that is still open. -/
structure Bracket.Tells (b : Bracket) (f : Frame) : Prop where
  selector_eq : b.selector = (f.kind != .atBlock)
  name_eq : b.name = f.name
  gives : Gives b.pairs f.declarations
  items : List.Forall₂ Records b.items f.before
  after_eq : f.after = []

namespace Bracket.Tells

variable {b c : Bracket} {f g : Frame}

theorem root : Bracket.root.Tells Frame.root := ⟨rfl, rfl, .empty, .nil, rfl⟩

/-- A block that has just been opened. -/
theorem start {selector : Bool} {kind : BlockKind} (h : selector = (kind != .atBlock)) (name : String) :
    Bracket.Tells { selector, name } { name, kind } :=
  ⟨h, rfl, .empty, .nil, rfl⟩

theorem put (h : b.Tells f) {item : Item} {n : Node} (hitem : Records item n) : (b.put item).Tells (f.push n) :=
  ⟨h.selector_eq, h.name_eq, h.gives, rel_append h.items (.cons hitem .nil), h.after_eq⟩

theorem give (h : b.Tells f) {value : Value} (htext : value.text ≠ "") (honest : value.Honest)
    (property : String) : (b.give property value.render).Tells (f.declare property value) :=
  ⟨h.selector_eq, h.name_eq, h.gives.insert htext honest property, h.items, h.after_eq⟩

/-- The block when it is closed. -/
theorem records (h : b.Tells f) : Records b.item f.node := by
  unfold Bracket.item Frame.node
  rw [h.name_eq, h.after_eq, append_nil]
  exact .block h.selector_eq h.gives h.items

/-- The block around an innermost block once that is closed. -/
theorem close (h : b.Tells f) (hc : c.Tells g) : (c.put b.item).Tells (f.close g) := by
  have hput := hc.put h.records
  unfold Frame.close
  rw [hc.after_eq]
  exact ⟨hput.selector_eq, hput.name_eq, hput.gives, hput.items, rfl⟩

/-- Closing all blocks on both sides. -/
theorem closeAll {bs : List Bracket} {fs : List Frame} (h : b.Tells f) (hs : List.Forall₂ Bracket.Tells bs fs) :
    (Scan.closeAll b bs).Tells (f.closeAll fs) := by
  induction hs generalizing b f with
  | nil => exact h
  | cons hc _ ih => exact ih (h.close hc)

end Bracket.Tells

/-- Closing the blocks inside it gives the outermost one no pairs. -/
theorem Scan.pairs_closeAll (b : Bracket) (bs : List Bracket) : (Scan.closeAll b bs).pairs = (bs.getLastD b).pairs := by
  induction bs generalizing b with
  | nil => rfl
  | cons c cs ih =>
    refine (ih (c.put b.item)).trans ?_
    cases cs with
    | nil => rfl
    | cons => rfl

end Stylesheet.Outline
