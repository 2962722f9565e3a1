import Stylesheet.Proofs.Reader.Growth
import Mathlib.Data.List.TakeWhile

/-!
# What reading does to the frames

The frames of a tree that is being read change in ways that can be told from the text alone, without the table of
blocks: opening a selector goes on with the last block if that has the same name, comments aside (`Frame.enter`), and
the end of a declaration puts in what the words read so far give (`declared`). This holds for options that neither
keep the source nor rename or discard anything (`Plain`).
-/

namespace Stylesheet

open List

/-- Options under which a stylesheet is read as it is written. -/
structure Options.Plain (o : Options) : Prop where
  preserveCss : o.preserveCss = false
  discardInvalidProperties : o.discardInvalidProperties = false
  lowercaseSelectors : o.lowercaseSelectors = false
  mergeSelectors : o.mergeSelectors ≠ .all

def Node.isComment : Node → Bool
  | .comment _ => true
  | _ => false

/-- The frames behind the start of a selector in a block: that of the selector, and that of the block around it. -/
def Frame.enter (f : Frame) (name : String) : Frame × Frame :=
  match f.before.reverse.dropWhile Node.isComment with
  | .block last (.selector fragments) ds children :: left =>
    if last = name then
      ({ name, kind := .selector fragments, declarations := ds, before := children },
        { f with before := left.reverse, after := (f.before.reverse.takeWhile Node.isComment).reverse })
    else ({ name, kind := .selector (Reader.State.fragmentsOf name) }, f)
  | _ => ({ name, kind := .selector (Reader.State.fragmentsOf name) }, f)

/-- Reads a declaration into a block, if there is one. -/
def Frame.declare? (f : Frame) (d : Option Declaration) : Frame :=
  match d with
  | some d => f.declare d.1 d.2
  | none => f

/-! ## Opening a selector -/

/-- A list is what is dropped from its end, the last element that is not, and the elements in front of that. -/
theorem eq_append_of_dropWhile_reverse {α : Type} {p : α → Bool} {xs left : List α} {x : α}
    (h : xs.reverse.dropWhile p = x :: left) : xs = left.reverse ++ x :: (xs.reverse.takeWhile p).reverse := by
  have hsplit := takeWhile_append_dropWhile (p := p) (l := xs.reverse)
  rw [h] at hsplit
  calc xs = xs.reverse.reverse := (reverse_reverse _).symm
    _ = (xs.reverse.takeWhile p ++ x :: left).reverse := by rw [hsplit]
    _ = _ := by simp

/-- A list has a last element outside of a condition, or the condition holds for all of them. -/
theorem all_or_exists_last {α : Type} (p : α → Bool) (xs : List α) :
    (∀ x ∈ xs, p x) ∨ ∃ left x right, xs = left ++ x :: right ∧ p x = false ∧ ∀ y ∈ right, p y := by
  induction xs with
  | nil => exact .inl nofun
  | cons x xs ih =>
    rcases ih with hall | ⟨left, y, right, rfl, hy, hright⟩
    · cases hx : p x with
      | true => exact .inl (forall_mem_cons.mpr ⟨hx, hall⟩)
      | false => exact .inr ⟨[], x, xs, rfl, hx, hall⟩
    · exact .inr ⟨x :: left, y, right, rfl, hy, hright⟩

/-- Children that are comments are comments as nodes. -/
theorem Twig.isComment_nodesOf {ts : List Twig} (h : ∀ t ∈ ts, t.child.isComment) : ∀ n ∈ nodesOf ts, n.isComment := by
  induction ts with
  | nil => exact nofun
  | cons t ts ih =>
    rw [forall_mem_cons] at h
    rw [nodesOf, forall_mem_append]
    refine ⟨?_, ih h.2⟩
    cases t <;> simp_all [child, Child.isComment, nodes, Node.isComment]

namespace Reader.State

open Twig

variable {o : Options} {s : State} {f : Frame} {fs : List Frame}

/-- The block that a selector goes on with is the last one, if that is a selector of its name. -/
theorem earlierSelector?_eq (ho : o.Plain) (d : Document) (parent : BlockId) (name : String) :
    earlierSelector? o d parent name
      = (((((d.get? parent).map (·.children)).getD []).reverse.find? (!·.isComment)).bind
          Child.blockId?).filter (isSelectorNamed d name) := by
  unfold earlierSelector?
  rw [if_neg (by simp [ho.preserveCss])]
  simp only
  split
  · next h => exact h.symm
  · next h => rw [if_neg ho.mergeSelectors, h]

theorem selectorName_eq (ho : o.Plain) (s : State) : s.selectorName o = Text.trim s.selector := by
  rw [selectorName, if_neg (by simp [ho.lowercaseSelectors])]

/-- **Opening a selector** goes on with the last block of its name or opens a new one. -/
theorem openSelector_builds_enter (ho : o.Plain) (h : s.Builds (f :: fs)) :
    (s.openSelector o).Builds
      ((f.enter (Text.trim s.selector)).1 :: (f.enter (Text.trim s.selector)).2 :: fs) := by
  have hname := selectorName_eq ho s
  obtain ⟨p, ps, hplaced, hframes⟩ := id h
  obtain ⟨rfl, rfl⟩ := cons.inj hframes
  have hearlier := earlierSelector?_eq ho s.document s.current (s.selectorName o)
  have hchildren : ((s.document.get? s.current).map (·.children)).getD [] = p.before.map child :=
    hplaced.children_inner
  rw [hchildren, hname, ← map_reverse] at hearlier
  have hfresh (hnone : earlierSelector? o s.document s.current (Text.trim s.selector) = none) :
      (s.openSelector o).Builds ({ name := Text.trim s.selector, kind := .selector (fragmentsOf
        (Text.trim s.selector)) } :: p.frame :: ps.map Spot.frame) := by
    rw [← hname] at hnone ⊢
    exact openSelector_builds_new h hnone
  have hbefore : p.frame.before = nodesOf p.before := rfl
  unfold Frame.enter
  -- the search finds the last of the nodes that is no comment
  rcases all_or_exists_last (fun t : Twig => t.child.isComment) p.before with hall | ⟨left, t, right, hsplit, ht, hright⟩
  · have hdrop : p.frame.before.reverse.dropWhile Node.isComment = [] := by
      simpa [hbefore] using isComment_nodesOf hall
    have hnone : (p.before.reverse.map child).find? (!·.isComment) = none := by simpa using hall
    rw [hnone] at hearlier
    rw [hdrop]
    exact hfresh hearlier
  · have hnodes : p.frame.before.reverse = (nodesOf right).reverse ++ (t.nodes.reverse ++ (nodesOf left).reverse) := by
      simp [hbefore, hsplit, nodesOf]
    have hcomments : ∀ n ∈ (nodesOf right).reverse, n.isComment := by simpa using isComment_nodesOf hright
    have hfind : (p.before.reverse.map child).find? (!·.isComment) = some t.child := by
      have hnone : (right.map child).reverse.find? (!·.isComment) = none := by simpa using hright
      simp [hsplit, find?_append, hnone, ht]
    rw [hfind] at hearlier
    rw [hnodes, dropWhile_append_of_pos hcomments, takeWhile_append_of_pos hcomments]
    cases t with
    | lineAt rule => exact hfresh hearlier
    | comment text => cases ht
    | gone id =>
      have hlost := lostOf_eq_nil_iff.mp (hplaced.whole p mem_cons_self).1 (.gone id) (by simp [hsplit])
      simp [lost] at hlost
    | block id hd children =>
      have hmem : .block id hd children ∈ p.before := by simp [hsplit]
      have hnamed : isSelectorNamed s.document (Text.trim s.selector) id
          = (hd.isSelector && hd.name == Text.trim s.selector) := by
        rw [isSelectorNamed, hplaced.bears.get?_of_mem hmem, Option.any_some]
        rfl
      simp only [child, Child.blockId?, Option.bind_some] at hearlier
      rw [Option.filter_some, hnamed] at hearlier
      obtain ⟨last, kind, ds⟩ := hd
      cases kind with
      | atBlock => exact hfresh hearlier
      | selector fragments =>
        simp only [nodes, reverse_singleton, singleton_append, dropWhile_cons, takeWhile_cons,
          Node.isComment, Bool.false_eq_true, if_false]
        by_cases hsame : last = Text.trim s.selector
        · rw [if_pos hsame]
          rw [if_pos (by simp [Head.isSelector, Block.isSelector, Head.block, hsame]), ← hname] at hearlier
          refine openSelector_builds_of_earlier hearlier ⟨_, _, hplaced.reopen hsplit, ?_⟩
          simp [Spot.frame, hsame, nodesOf]
        · rw [if_neg hsame]
          rw [if_neg (by simp [hsame])] at hearlier
          exact hfresh hearlier

end Reader.State

/-! ## Ending a declaration -/

namespace Value

/-- The line of a declaration is only reported. -/
theorem mendColor_line (property part : String) (line : Nat) :
    (mendColor property part line).1 = (mendColor property part 0).1 := by
  unfold mendColor
  split
  · rfl
  · split <;> rfl

theorem analyse_line (convert : Bool) (text : String) (line : Nat) :
    (analyse convert text line).map Prod.fst = (analyse convert text 0).map Prod.fst := by
  unfold analyse
  split
  · rfl
  · split
    · rfl
    · split <;> rfl

theorem settleUnit_line (property text number unit : String) (line : Nat) :
    (settleUnit property text number unit line).1 = (settleUnit property text number unit 0).1 := by
  unfold settleUnit
  split
  · split <;> rfl
  · split <;> rfl

theorem shortenAll_line (convert : Bool) (property : String) (line : Nat) (texts : List String) :
    (shortenAll convert property line texts).1 = (shortenAll convert property 0 texts).1 := by
  induction texts with
  | nil => rfl
  | cons text texts ih =>
    have hanalyse := analyse_line convert text line
    unfold shortenAll
    cases hline : analyse convert text line with
    | none =>
      rw [hline] at hanalyse
      cases hzero : analyse convert text 0 with
      | none => rfl
      | some found => simp [hzero] at hanalyse
    | some found =>
      rw [hline] at hanalyse
      cases hzero : analyse convert text 0 with
      | none => simp [hzero] at hanalyse
      | some found' =>
        obtain ⟨⟨number, unit⟩, messages⟩ := found
        obtain ⟨⟨number', unit'⟩, messages'⟩ := found'
        simp only [hzero, Option.map_some, Option.some.injEq, Prod.mk.injEq] at hanalyse
        obtain ⟨rfl, rfl⟩ := hanalyse
        simp only [ih, settleUnit_line property text number unit line]

theorem shortenNumber_line (convert : Bool) (property part : String) (line : Nat) :
    (shortenNumber convert property part line).1 = (shortenNumber convert property part 0).1 := by
  unfold shortenNumber
  simp only [shortenAll_line convert property line]

end Value

namespace Reader

open State

variable {o : Options} {s : State} {f : Frame} {fs : List Frame}

theorem tidyPart_line (o : Options) (property : String) (line : Nat) (part : String) :
    (tidyPart o property line part).1 = (tidyPart o property 0 part).1 := by
  unfold tidyPart
  split
  · rfl
  · cases o.preserveCss with
    | true => rfl
    | false =>
      simp only [Bool.false_eq_true, if_false, Value.mendColor_line property part line,
        Value.shortenNumber_line o.convertUnit property _ line]

/-- The declaration that the name of a property and the parts of a value make up, if there is one. -/
def declared (o : Options) (property : String) (parts : List String) : Option Declaration :=
  declaration? o { property, parts, openBlocks := [Document.root] }

theorem parts_flushPart (h : s.part = "") : s.flushPart.parts = s.parts := by
  have htrim : Text.trim "" = "" := by decide
  simp [flushPart, h, htrim]

/-- Inside of a block the declaration depends on the property and the parts only. -/
theorem declaration?_eq_declared (hopen : s.openBlocks ≠ []) :
    s.declaration? o = declared o s.property s.flushPart.parts := by
  have hempty : s.openBlocks.isEmpty = false := by simpa using hopen
  have htidy (property : String) : (fun part => (tidyPart o property s.valueLine part).1)
      = fun part => (tidyPart o property 1 part).1 := by
    funext part
    rw [tidyPart_line o property s.valueLine, tidyPart_line o property 1]
  unfold declared declaration?
  generalize s.flushPart.parts = parts
  rw [parts_flushPart rfl]
  simp only [hempty, htidy, isEmpty_cons]

/-- **The end of a declaration** reads it into the innermost block. -/
theorem endDeclaration_builds (h : s.Builds (f :: fs)) (hopen : s.openBlocks ≠ []) :
    (s.endDeclaration o).Builds (f.declare? (declared o s.property s.flushPart.parts) :: fs) := by
  have hcleared : (s.cleared o).Builds (f :: fs) := h.congr rfl rfl
  rw [← declaration?_eq_declared hopen, endDeclaration_eq_elim]
  cases s.declaration? o with
  | none => exact hcleared
  | some d => exact addDeclaration_builds hcleared d.1 d.2

end Reader

end Stylesheet
