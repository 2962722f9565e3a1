import Stylesheet.Proofs.Reader.Effects
import Stylesheet.Proofs.Reader.Preface
import Stylesheet.Proofs.Reader.Sight

/-!
# States that go on alike

Two states of the reader are `Alike` if the same comes of whatever is read next, but for what their documents differ in
already. They need not be equal: lines and messages may differ, and so may the buffers that only a mode uses which is
neither the current one nor one to return to.

How the documents differ is left open, as long as the difference is `Lasting`: whatever the reader does to both of them
leaves it that way. The documents may be the same (`lasting_same`), and where the source is kept the first one may start
with a preface (`lasting_extends`).

Steps that see the same text lead from states that are alike to states that are alike, and take the same number of
characters along (`step_alike`, `next_alike`); and so does the end of the text (`finish_alike`).
-/

namespace Stylesheet.Reader

open State List
open Text (Cursor)

/-! ## Differences that last -/

/-- How a document differs from another one, with the blocks that are open in them. -/
abbrev Tie := Document → List BlockId → Document → List BlockId → Prop

/-- The documents of two states differ in this way. -/
abbrev Related (R : Tie) (s t : State) : Prop := R s.document s.openBlocks t.document t.openBlocks

/-- Whatever the reader does to both documents keeps the difference. -/
structure Lasting (o : Options) (R : Tie) : Prop where
  isEmpty_eq {s t : State} : Related R s t → s.openBlocks.isEmpty = t.openBlocks.isEmpty
  addComment {s t : State} : Related R s t → ∀ text, Related R (s.addComment o text) (t.addComment o text)
  openSelector {s t : State} : Related R s t → s.selector = t.selector → Related R (s.openSelector o) (t.openSelector o)
  openAtBlock {s t : State} : Related R s t → s.flushPart.parts = t.flushPart.parts →
    ∀ body body', Related R (s.openAtBlock o body) (t.openAtBlock o body')
  closeBlock {s t : State} : Related R s t → Related R (s.closeBlock o) (t.closeBlock o)
  addAtRule {s t : State} : Related R s t → s.parts = t.parts → Related R (s.addAtRule o) (t.addAtRule o)
  addDeclaration {s t : State} : Related R s t → ∀ property value,
    Related R (s.addDeclaration o property value) (t.addDeclaration o property value)

theorem lasting_extends {o : Options} (ho : o.preserveCss = true) (p : Preface) : Lasting o p.Extends where
  isEmpty_eq h := h.isEmpty_eq
  addComment h := Extending.addComment ho h
  openSelector h := Extending.openSelector ho h
  openAtBlock h := Extending.openAtBlock ho h
  closeBlock h := Extending.closeBlock ho h
  addAtRule h := Extending.addAtRule ho h
  addDeclaration h := Extending.addDeclaration ho h

/-- The documents do not differ at all. -/
def Same : Tie := fun d path d' path' => d = d' ∧ path = path'

theorem lasting_same (o : Options) : Lasting o Same where
  isEmpty_eq h := congrArg isEmpty h.2
  addComment {s t} h text := by
    simp only [Related, Same, State.addComment, pushToken_eq, current, h.1, h.2, and_self]
  openSelector {s t} h hselector := by
    unfold openSelector
    simp only [State.pushMode, current, hselector, h.1, h.2]
    split <;> simp only [Related, Same, pushToken_eq, and_self]
  openAtBlock {s t} h hparts body body' := by
    have hflush : s.flushPart.document = t.flushPart.document ∧ s.flushPart.openBlocks = t.flushPart.openBlocks := h
    unfold openAtBlock
    simp only [Related, Same, pushToken_eq, State.pushMode, current, hparts, hflush, and_self]
  closeBlock {s t} h := by
    unfold closeBlock
    rw [h.1, h.2]
    split
    · exact h
    · simp only [Related, Same, pushToken_eq, and_self]
  addAtRule {s t} h hparts := by
    unfold addAtRule
    rw [hparts]
    cases t.parts with
    | nil => exact h
    | cons name rest =>
      simp only
      split
      · simp only [Related, Same, addCharset_document, h.1, h.2, and_self]
      · simp only [Related, Same, addNamespace_document, h.1, h.2, and_self]
      · simp only [Related, Same, addImport_document, h.1, h.2, and_self]
      · simp only [Related, Same, addLineAt, pushToken_eq, current, h.1, h.2, and_self]
  addDeclaration {s t} h property value := by
    simp only [Related, Same, addDeclaration, pushToken_eq, current, h.1, h.2, and_self]

/-! ## States -/

/-- The modes that have no buffers of their own. -/
def Mode.unbuffered : List Mode := [.selector, .property, .value]

theorem bodyMode_mem (body : Keyword.AtBody) : bodyMode body ∈ Mode.unbuffered := by
  cases body <;> decide

/-- The same comes of whatever is read next, but for how the documents differ. -/
structure Alike (R : Tie) (s t : State) : Prop where
  mode : s.mode = t.mode
  returns : s.returns = t.returns
  selector : s.selector = t.selector
  property : s.property = t.property
  part : s.part = t.part
  parts : s.parts = t.parts
  string : Mode.string ∈ t.mode :: t.returns →
    s.string = t.string ∧ s.quote = t.quote ∧ s.keepQuotes = t.keepQuotes
  bracket : Mode.bracket ∈ t.mode :: t.returns → s.function = t.function ∧ s.depth = t.depth
  origin : Mode.atRule ∈ t.mode :: t.returns → s.origin = t.origin
  document : Related R s t

namespace Alike

theorem refl (s : State) : Alike Same s s :=
  ⟨rfl, rfl, rfl, rfl, rfl, rfl, fun _ => ⟨rfl, rfl, rfl⟩, fun _ => ⟨rfl, rfl⟩, fun _ => rfl, ⟨rfl, rfl⟩⟩

variable {o : Options} {R : Tie} {s t s' t' : State}

theorem ite {P Q : Prop} [Decidable P] [Decidable Q] (hiff : P ↔ Q) (hpos : Alike R s t) (hneg : Alike R s' t') :
    Alike R (if P then s else s') (if Q then t else t') := by
  by_cases hq : Q
  · rw [if_pos (hiff.mpr hq), if_pos hq]
    exact hpos
  · rw [if_neg (mt hiff.mp hq), if_neg hq]
    exact hneg

/-! ## Modes -/

section

variable (h : Alike R s t)
include h

/-- A change to modes that were there, or that have no buffers of their own. -/
theorem withModes {mode mode' : Mode} {returns returns' : List Mode} (hmode : mode = mode')
    (hreturns : returns = returns')
    (hold : ∀ m ∈ mode' :: returns', m ∈ t.mode :: t.returns ∨ m ∈ Mode.unbuffered) :
    Alike R { s with mode, returns } { t with mode := mode', returns := returns' } :=
  { h with
    mode := hmode
    returns := hreturns
    string := fun hm => h.string ((hold _ hm).resolve_right (by decide))
    bracket := fun hm => h.bracket ((hold _ hm).resolve_right (by decide))
    origin := fun hm => h.origin ((hold _ hm).resolve_right (by decide)) }

theorem popMode (otherwise : Mode) (hotherwise : otherwise ∈ Mode.unbuffered) :
    Alike R (s.popMode otherwise) (t.popMode otherwise) := by
  rw [popMode_eq, popMode_eq, h.returns]
  refine h.withModes rfl rfl fun m hm => ?_
  cases hreturns : t.returns with
  | nil =>
    rw [hreturns] at hm
    have heq : m = otherwise := by simpa using hm
    exact .inr (heq ▸ hotherwise)
  | cons back returns =>
    rw [hreturns] at hm
    exact .inl (mem_cons_of_mem _ (by simpa using hm))

/-- A turn to a mode that has no buffers of its own. -/
theorem pushMode (mode back : Mode) (hmode : mode ∈ Mode.unbuffered)
    (hback : back ∈ Mode.unbuffered) : Alike R (s.pushMode mode back) (t.pushMode mode back) := by
  refine h.withModes rfl (congrArg (cons back) h.returns) fun m hm => ?_
  rcases mem_cons.mp hm with rfl | hm
  · exact .inr hmode
  rcases mem_cons.mp hm with rfl | hm
  · exact .inr hback
  · exact .inl (mem_cons_of_mem _ hm)

/-- A mode that is not returned to after all. -/
theorem dropReturn : Alike R { s with returns := s.returns.drop 1 } { t with returns := t.returns.drop 1 } :=
  h.withModes h.mode (congrArg (drop 1) h.returns) fun _ hm =>
    .inl (((drop_sublist 1 _).cons_cons _).subset hm)

/-- A turn to an at-rule, with what it stands among. -/
theorem beginAtRule (origin : Keyword.AtBody) :
    Alike R { s with origin, mode := .atRule } { t with origin, mode := .atRule } :=
  { h with
    mode := rfl
    string := fun hm => h.string (mem_cons_of_mem _ ((mem_cons.mp hm).resolve_left nofun))
    bracket := fun hm => h.bracket (mem_cons_of_mem _ ((mem_cons.mp hm).resolve_left nofun))
    origin := fun _ => rfl }

theorem beginString (quote : Char) (keepQuotes : Bool) :
    Alike R (s.beginString quote keepQuotes) (t.beginString quote keepQuotes) :=
  { h with
    mode := rfl
    returns := congrArg₂ cons h.mode h.returns
    string := fun _ => ⟨rfl, rfl, rfl⟩
    bracket := fun hm => h.bracket ((mem_cons.mp hm).resolve_left nofun)
    origin := fun hm => h.origin ((mem_cons.mp hm).resolve_left nofun) }

/-- A function begins where its name and the part that holds it are the same. -/
theorem beginBracket {function function' part part' : String} (hfunction : function = function')
    (hpart : part = part') {back : Mode} (hback : back = t.mode) :
    Alike R (State.pushMode { s with function, part, depth := 1 } .bracket back)
      (State.pushMode { t with function := function', part := part', depth := 1 } .bracket back) :=
  { h with
    mode := rfl
    returns := congrArg (cons back) h.returns
    part := hpart
    string := fun hm => h.string (hback ▸ (mem_cons.mp hm).resolve_left nofun)
    bracket := fun _ => ⟨hfunction, rfl⟩
    origin := fun hm => h.origin (hback ▸ (mem_cons.mp hm).resolve_left nofun) }

/-! ## Buffers -/

theorem flushPart : Alike R s.flushPart t.flushPart := by
  have hparts : s.flushPart.parts = t.flushPart.parts := by
    unfold State.flushPart
    rw [h.part, h.parts]
  exact { h with part := rfl, parts := hparts }

theorem addPart (part : String) : Alike R { s with parts := s.parts ++ [part] } { t with parts := t.parts ++ [part] } :=
  { h with parts := congrArg (· ++ [part]) h.parts }

theorem spaceSelector : Alike R s.spaceSelector t.spaceSelector := by
  unfold State.spaceSelector
  rw [h.selector]
  split
  · exact h
  · exact ite Iff.rfl h { h with selector := rfl }

theorem pushArgument (c : Char) : Alike R (s.pushArgument c) (t.pushArgument c) := by
  unfold State.pushArgument
  rw [h.part]
  exact ite Iff.rfl h (ite Iff.rfl { h with part := rfl } { h with part := rfl })

theorem withDepth {depth depth' : Nat} (hdepth : depth = depth') :
    Alike R { s with depth } { t with depth := depth' } :=
  { h with bracket := fun hm => ⟨(h.bracket hm).1, hdepth⟩ }

theorem withString {string string' : String} (hstring : string = string') :
    Alike R { s with string } { t with string := string' } :=
  { h with string := fun hm => ⟨hstring, (h.string hm).2⟩ }

theorem closeString (hmode : t.mode = .string) (o : Options) : Alike R (s.closeString o) (t.closeString o) := by
  have hstring := h.string (hmode ▸ mem_cons_self)
  have htext : s.stringText o = t.stringText o := by
    rw [stringText, stringText, hstring.1, hstring.2.2, h.property]
  have hempty : Alike R { s with string := "", keepQuotes := false } { t with string := "", keepQuotes := false } :=
    { h with string := fun _ => ⟨rfl, hstring.2.1, rfl⟩ }
  have hback := hempty.popMode .value (by decide)
  unfold State.closeString
  simp only
  rw [htext]
  generalize State.popMode { s with string := "", keepQuotes := false } .value = u at hback ⊢
  generalize State.popMode { t with string := "", keepQuotes := false } .value = v at hback ⊢
  exact ite (by rw [hback.mode]) { hback with selector := congrArg (· ++ _) hback.selector }
    { hback with part := congrArg (· ++ _) hback.part }

/-- An escape is put down in the log at most, however it is read. -/
theorem readEscape (k k' : Cursor) : Alike R (s.readEscape o k).2.1 (t.readEscape o k').2.1 := by
  rcases hread : s.readEscape o k with ⟨text, u, n⟩
  rcases hread' : t.readEscape o k' with ⟨text', u', n'⟩
  obtain ⟨line, new, -, rfl⟩ := readEscape_eq hread
  obtain ⟨line', new', -, rfl⟩ := readEscape_eq hread'
  exact { h with }

/-! ## Blocks, comments and at-rules -/

end

section

variable (hR : Lasting o R)
include hR

theorem addComment (h : Alike R s t) (text : List Char) : Alike R (s.addComment o text) (t.addComment o text) := by
  have hdocument := hR.addComment h.document text
  unfold State.addComment at hdocument ⊢
  simp only [pushToken_eq] at hdocument ⊢
  exact { h with document := hdocument }

theorem openSelector (h : Alike R s t) : Alike R (s.openSelector o) (t.openSelector o) := by
  have hdocument := hR.openSelector h.document h.selector
  obtain ⟨id, d, heq⟩ := openSelector_eq o s
  obtain ⟨id', d', heq'⟩ := openSelector_eq o t
  rw [heq, heq'] at hdocument ⊢
  have hmodes := h.pushMode .property .selector (by decide) (by decide)
  exact { hmodes with selector := rfl, document := hdocument }

theorem openAtBlock (h : Alike R s t) (hmode : t.mode = .atRule)
    {body body' : List Char} (hbody : bodyOf t.flushPart.parts body = bodyOf t.flushPart.parts body') :
    Alike R (s.openAtBlock o body) (t.openAtBlock o body') := by
  have hparts := h.flushPart.parts
  have hdocument := hR.openAtBlock h.document hparts body body'
  obtain ⟨d, heq⟩ := openAtBlock_eq o s body
  obtain ⟨d', heq'⟩ := openAtBlock_eq o t body'
  rw [heq, heq'] at hdocument ⊢
  rw [hparts, hbody, h.origin (hmode ▸ mem_cons_self)]
  have hmodes := h.pushMode _ _ (bodyMode_mem (bodyOf t.flushPart.parts body')) (bodyMode_mem t.origin)
  exact { hmodes with part := rfl, parts := rfl, origin := fun _ => rfl, document := hdocument }

theorem closeBlock (h : Alike R s t) : Alike R (s.closeBlock o) (t.closeBlock o) := by
  have hdocument := hR.closeBlock h.document
  obtain ⟨d, heq⟩ := closeBlock_eq o s
  obtain ⟨d', heq'⟩ := closeBlock_eq o t
  rw [heq, heq'] at hdocument ⊢
  exact { h with document := hdocument }

theorem addAtRule (h : Alike R s t) : Alike R (s.addAtRule o) (t.addAtRule o) := by
  have hdocument := hR.addAtRule h.document h.parts
  obtain ⟨d, new, -, heq⟩ := addAtRule_eq o s
  obtain ⟨d', new', -, heq'⟩ := addAtRule_eq o t
  rw [heq, heq'] at hdocument ⊢
  exact { h with document := hdocument }

/-- The end of an at-rule without a body. -/
theorem endAtRule (h : Alike R s t) (hmode : t.mode = .atRule) : Alike R (s.endAtRule o) (t.endAtRule o) := by
  have hrule := h.flushPart.addAtRule hR
  unfold State.endAtRule
  rw [h.origin (hmode ▸ mem_cons_self)]
  generalize s.flushPart.addAtRule o = u at hrule
  generalize t.flushPart.addAtRule o = v at hrule
  have hmodes : Alike R { u with mode := bodyMode t.origin } { v with mode := bodyMode t.origin } := by
    refine hrule.withModes rfl hrule.returns fun m hm => ?_
    rcases mem_cons.mp hm with rfl | hm
    · exact .inr (bodyMode_mem t.origin)
    · exact .inl (mem_cons_of_mem _ hm)
  exact { hmodes with parts := rfl }

/-! ## Declarations -/

theorem addDeclaration (h : Alike R s t) (property : String) (value : Value) :
    Alike R (s.addDeclaration o property value) (t.addDeclaration o property value) := by
  have hdocument := hR.addDeclaration h.document property value
  obtain ⟨d, heq⟩ := addDeclaration_eq o s property value
  obtain ⟨d', heq'⟩ := addDeclaration_eq o t property value
  rw [heq, heq'] at hdocument ⊢
  exact { h with document := hdocument }

/-- The line of a value has no part in the declaration. -/
theorem declaration?_eq (h : Alike R s t) : s.declaration? o = t.declaration? o := by
  have htidy (property : String) : (fun part => (tidyPart o property s.valueLine part).1)
      = fun part => (tidyPart o property t.valueLine part).1 := by
    funext part
    rw [tidyPart_line o property s.valueLine, tidyPart_line o property t.valueLine]
  unfold declaration?
  simp only [h.flushPart.parts, h.property, htidy, hR.isEmpty_eq h.document]

/-- The end of a declaration. -/
theorem endDeclaration (h : Alike R s t) : Alike R (s.endDeclaration o) (t.endDeclaration o) := by
  have hcleared : Alike R (s.cleared o) (t.cleared o) := { h with part := rfl, parts := rfl, property := rfl }
  rw [endDeclaration_eq_elim, endDeclaration_eq_elim, h.declaration?_eq hR]
  cases t.declaration? o with
  | none => exact hcleared
  | some d => exact hcleared.addDeclaration hR d.1 d.2

end

end Alike

/-! ## Steps -/

variable {o : Options} {R : Tie} {s t : State} {k k' : Cursor} {c : Char}

/-- A condition behind a test of the character matters only if the test succeeds. -/
theorem beq_and_congr {c d : Char} {x y : Bool} (h : c = d → x = y) : (c == d && x) = (c == d && y) := by
  by_cases hc : c = d
  · rw [h hc]
  · rw [beq_eq_false_iff_ne.mpr hc, Bool.false_and, Bool.false_and]

/-- Both steps lead to states that are alike, and take the same number of characters along. -/
def Both (R : Tie) (x y : State × Nat) : Prop := Alike R x.1 y.1 ∧ x.2 = y.2

theorem Both.pair {n : Nat} (h : Alike R s t) : Both R (s, n) (t, n) := ⟨h, rfl⟩

theorem Both.ite {b b' : Bool} {x x' y y' : State × Nat} (hb : b = b') (hpos : b' = true → Both R x y)
    (hneg : b' = false → Both R x' y') : Both R (if b then x else x') (if b' then y else y') := by
  subst hb
  cases b with
  | true => exact hpos rfl
  | false => exact hneg rfl

/-- Moves behind a test that has the same outcome for both. -/
theorem Both.move {b : Bool} {n : Nat} {x y : State × Nat} (h : Alike R s t) (hneg : Both R x y) :
    Both R (if b then (s, n) else x) (if b then (t, n) else y) := .ite rfl (fun _ => .pair h) (fun _ => hneg)

theorem Sees.readRun (hk : Sees o t k k') (c : Char) : State.readRun k c = State.readRun k' c := by
  rw [State.readRun, hk.run, State.readRun]

theorem Alike.readComment (hR : Lasting o R) (h : Alike R s t) (hk : Sees o t k k')
    (hstring : t.mode ≠ .string) (hbracket : t.mode ≠ .bracket) (htoken : k'.atToken = true)
    (hcomment : atComment k' = true) : Both R (s.readComment o k) (t.readComment o k') := by
  rw [readComment_eq_addComment, readComment_eq_addComment, hk.comment hstring hbracket htoken hcomment]
  exact .pair (h.addComment hR _)

/-- An escape that is seen by both. -/
theorem Alike.readSame (h : Alike R s t) (hk : Sees o t k k') (hstring : t.mode ≠ .string) (hbracket : t.mode ≠ .bracket)
    (htoken : k'.atToken = true) (hc : k'.rest.head? = some c) (hescape : (c == '\\') = true) :
    ∃ text u v n, s.readEscape o k = (text, u, n) ∧ t.readEscape o k' = (text, v, n) ∧ Alike R u v := by
  have hsame := hk.escape hstring hbracket htoken (beq_iff_eq.mp hescape ▸ hc)
  refine ⟨_, _, _, _, rfl, Prod.ext ?_ (Prod.ext rfl ?_), h.readEscape k k'⟩
  · exact congrArg (·.text) hsame.symm
  · exact congrArg (·.length) hsame.symm

theorem inSelector_alike (hR : Lasting o R) (h : Alike R s t) (hmode : t.mode = .selector)
    (hk : Sees o t k k') (hc : k'.rest.head? = some c) : Both R (s.inSelector o k c) (t.inSelector o k' c) := by
  unfold inSelector
  -- every test has the same outcome for both, and every branch is a move that keeps them alike
  refine .ite (by rw [hk.atToken]) (fun _ => ?_) (fun htoken => ?_)
  · refine .move h.spaceSelector ?_
    rw [hk.readRun c]
    exact .pair { h with selector := congrArg (· ++ _) h.selector }
  have htoken : k'.atToken = true := by simpa using htoken
  refine .ite hk.atComment (fun hat => h.readComment hR hk (by simp [hmode]) (by simp [hmode]) htoken hat)
    (fun _ => ?_)
  refine .move (h.openSelector hR) ?_
  refine .move { h with selector := by rw [h.selector] } ?_
  refine .ite (by rw [h.selector]) (fun _ => .pair { h.beginAtRule .rules with selector := rfl }) (fun _ => ?_)
  refine .ite rfl (fun _ => ?_) (fun _ => ?_)
  · rw [hk.equals]
    exact .pair (h.beginString _ _)
  refine .move { (h.closeBlock hR).popMode .selector (by decide) with selector := rfl } ?_
  refine .ite rfl (fun hescape => ?_) (fun _ => ?_)
  · obtain ⟨text, u, v, n, heq, heq', halike⟩ :=
      h.readSame hk (by simp [hmode]) (by simp [hmode]) htoken hc hescape
    rw [heq, heq']
    exact .pair { halike with selector := congrArg (· ++ text) halike.selector }
  refine .ite (beq_and_congr fun hstar => ?_) (fun _ => .pair { h with })
    (fun _ => .pair { h with selector := congrArg (·.push c) h.selector })
  exact hk.second (hstar ▸ hc)

theorem inProperty_alike (hR : Lasting o R) (h : Alike R s t) (hmode : t.mode = .property)
    (hk : Sees o t k k') (hc : k'.rest.head? = some c) : Both R (s.inProperty o k c) (t.inProperty o k' c) := by
  unfold inProperty
  refine .ite (by rw [hk.atToken]) (fun _ => ?_) (fun htoken => ?_)
  · refine .move h ?_
    rw [hk.readRun c]
    exact .pair { h with property := congrArg (· ++ _) h.property }
  have htoken : k'.atToken = true := by simpa using htoken
  refine .ite (by rw [h.property]) (fun _ => ?_) (fun _ => ?_)
  · have hline : Alike R { s with valueLine := s.line } { t with valueLine := t.line } := { h with }
    exact .pair (hline.pushMode .value .property (by decide) (by decide))
  refine .ite hk.atComment (fun hat => h.readComment hR hk (by simp [hmode]) (by simp [hmode]) htoken hat)
    (fun _ => ?_)
  refine .ite rfl (fun _ => ?_) (fun _ => ?_)
  · exact .pair { (h.closeBlock hR).popMode .selector (by decide) with selector := rfl, property := rfl }
  refine .ite (by rw [h.property]) (fun _ => .pair (h.beginAtRule .declarations)) (fun _ => ?_)
  refine .move { h with property := rfl } ?_
  refine .ite rfl (fun hescape => ?_) (fun _ => ?_)
  · obtain ⟨text, u, v, n, heq, heq', halike⟩ :=
      h.readSame hk (by simp [hmode]) (by simp [hmode]) htoken hc hescape
    rw [heq, heq']
    exact .pair { halike with property := congrArg (· ++ text) halike.property }
  exact .ite (by rw [h.property]) (fun _ => .pair { h with property := congrArg (·.push c) h.property })
    (fun _ => .pair h)

theorem inWords_alike (h : Alike R s t) (hk : Sees o t k k') : Both R (s.inWords k c) (t.inWords k' c) := by
  unfold inWords
  refine .move h.flushPart ?_
  rw [hk.readRun c]
  exact .pair { h with part := congrArg (· ++ _) h.part }

theorem inValue_alike (hR : Lasting o R) (h : Alike R s t) (hmode : t.mode = .value)
    (hk : Sees o t k k') (hc : k'.rest.head? = some c) : Both R (s.inValue o k c) (t.inValue o k' c) := by
  have hend : Alike R ((s.popMode .property).endDeclaration o) ((t.popMode .property).endDeclaration o) :=
    (h.popMode .property (by decide)).endDeclaration hR
  unfold inValue
  refine .ite hk.last (fun _ => .pair hend) (fun _ => ?_)
  refine .ite (beq_and_congr fun hline => hk.property hmode (hline ▸ hc)) (fun _ => ?_) (fun _ => ?_)
  · have hwarn : Alike R (s.warn "Added semicolon to the end of declaration")
        (t.warn "Added semicolon to the end of declaration") := { h with }
    exact .pair ((hwarn.popMode .property (by decide)).endDeclaration hR)
  refine .ite (by rw [hk.atToken]) (fun _ => inWords_alike h hk) (fun htoken => ?_)
  have htoken : k'.atToken = true := by simpa using htoken
  refine .ite hk.atComment (fun hat => h.readComment hR hk (by simp [hmode]) (by simp [hmode]) htoken hat)
    (fun _ => ?_)
  refine .move (h.beginString _ _) ?_
  refine .ite rfl (fun _ => .pair (h.beginBracket h.part (congrArg (·.push '(') h.part) hmode.symm)) (fun _ => ?_)
  refine .move (h.flushPart.addPart _) ?_
  refine .ite rfl (fun hescape => ?_) (fun _ => ?_)
  · obtain ⟨text, u, v, n, heq, heq', halike⟩ :=
      h.readSame hk (by simp [hmode]) (by simp [hmode]) htoken hc hescape
    rw [heq, heq']
    exact .pair { halike with part := congrArg (· ++ text) halike.part }
  refine .move hend ?_
  refine .ite rfl (fun _ => ?_) (fun _ => .pair { h with part := congrArg (·.push c) h.part })
  have hclose := (h.endDeclaration hR).closeBlock hR
  -- only that the states are alike matters from here on, not how they came about
  generalize (s.endDeclaration o).closeBlock o = u at hclose ⊢
  generalize (t.endDeclaration o).closeBlock o = v at hclose ⊢
  exact .pair { hclose.dropReturn.popMode .selector (by decide) with selector := rfl }

theorem inBracket_alike (h : Alike R s t) (hmode : t.mode = .bracket) (hk : Sees o t k k') :
    Both R (s.inBracket k c) (t.inBracket k' c) := by
  obtain ⟨hfunction, hdepth⟩ := h.bracket (hmode ▸ mem_cons_self)
  unfold inBracket
  refine .move (h.pushArgument ' ') ?_
  refine .ite (by rw [hk.escaped]) (fun _ => ?_) (fun _ => ?_)
  · rw [hk.readRun c]
    exact .pair { h with part := congrArg (· ++ _) h.part }
  refine .ite rfl (fun _ => ?_) (fun _ => ?_)
  · rw [hfunction]
    exact .pair (h.beginString _ _)
  refine .move ((h.withDepth (congrArg (· + 1) hdepth)).pushArgument c) ?_
  refine .ite rfl (fun _ => ?_) (fun _ => .pair (h.pushArgument c))
  have hclose := (h.withDepth (congrArg (· - 1) hdepth)).pushArgument c
  obtain ⟨part, heq⟩ := pushArgument_eq { t with depth := t.depth - 1 } c
  rw [heq] at hclose ⊢
  generalize State.pushArgument { s with depth := s.depth - 1 } c = u at hclose ⊢
  -- the function is left with its last parenthesis, and its name is forgotten in both
  have hback := hclose.popMode .value (by decide)
  refine .pair (.ite ?_ { hback with bracket := fun hm => ⟨rfl, (hback.bracket hm).2⟩ } hclose)
  rw [(hclose.bracket (hmode ▸ mem_cons_self)).2]

theorem inString_alike (h : Alike R s t) (hmode : t.mode = .string)
    (hk : Sees o t k k') : Both R (s.inString o k c) (t.inString o k' c) := by
  obtain ⟨hstring, hquote, -⟩ := h.string (hmode ▸ mem_cons_self)
  have hpush := h.withString (congrArg (·.push c) hstring)
  unfold inString
  refine .ite (by rw [hk.escaped]) (fun _ => ?_) (fun _ => ?_)
  · exact .pair { h.withString (congrArg (· ++ _) hstring) with }
  · exact .pair (.ite (by rw [hk.escaped, hquote]) (hpush.closeString hmode o) hpush)

theorem inAtRule_alike (hR : Lasting o R) (h : Alike R s t) (hmode : t.mode = .atRule)
    (hk : Sees o t k k') (hc : k'.rest.head? = some c) : Both R (s.inAtRule o k c) (t.inAtRule o k' c) := by
  unfold inAtRule
  refine .ite (by rw [hk.atToken]) (fun _ => inWords_alike h hk) (fun htoken => ?_)
  have htoken : k'.atToken = true := by simpa using htoken
  refine .ite hk.atComment (fun hat => h.readComment hR hk (by simp [hmode]) (by simp [hmode]) htoken hat)
    (fun _ => ?_)
  refine .move (h.beginString _ _) ?_
  refine .ite rfl (fun _ => ?_) (fun _ => ?_)
  · have hpart : s.part.push '(' = t.part.push '(' := congrArg (·.push '(') h.part
    exact .pair (h.beginBracket hpart hpart hmode.symm)
  refine .move (h.endAtRule hR hmode) ?_
  refine .move (h.flushPart.addPart _) ?_
  refine .ite rfl (fun hbrace => ?_) (fun _ => ?_)
  · have hbrace : c = '{' := by simpa using hbrace
    exact .pair (h.openAtBlock hR hmode (hk.body hmode htoken (hbrace ▸ hc)))
  refine .ite rfl (fun hescape => ?_) (fun _ => .pair { h with part := congrArg (·.push c) h.part })
  obtain ⟨text, u, v, n, heq, heq', halike⟩ := h.readSame hk (by simp [hmode]) (by simp [hmode]) htoken hc hescape
  rw [heq, heq']
  exact .pair { halike with part := congrArg (· ++ text) halike.part }

/-- Steps that see the same text. -/
theorem step_alike (hR : Lasting o R) (h : Alike R s t) (hk : Sees o t k k')
    (hc : k'.rest.head? = some c) : Both R (s.step o k c) (t.step o k' c) := by
  unfold step
  rw [h.mode]
  cases hmode : t.mode with
  | selector => exact inSelector_alike hR h hmode hk hc
  | property => exact inProperty_alike hR h hmode hk hc
  | value => exact inValue_alike hR h hmode hk hc
  | string => exact inString_alike h hmode hk
  | bracket => exact inBracket_alike h hmode hk
  | atRule => exact inAtRule_alike hR h hmode hk hc

/-! ## Readers -/

theorem Alike.countLine (h : Alike R s t) (c : Char) : Alike R (s.countLine c) (t.countLine c) :=
  .ite Iff.rfl { h with } h

/-- Lines are counted before a step is taken, and no step looks at them. -/
theorem Sees.countLine (hk : Sees o t k k') (c : Char) : Sees o (t.countLine c) k k' := by
  obtain ⟨line, heq⟩ := t.countLine_eq c
  rw [heq]
  exact { hk with }

/-- One step of two readers that see the same text moves both of them by the same number of characters. -/
theorem next_alike (hR : Lasting o R) {r r' : Reader} (h : Alike R r.state r'.state)
    (hk : Sees o r'.state r.cursor r'.cursor) (hrest : r'.cursor.rest ≠ []) :
    ∃ n, (r.next o).cursor = r.cursor.advance n ∧ (r'.next o).cursor = r'.cursor.advance n ∧
      Alike R (r.next o).state (r'.next o).state := by
  obtain ⟨c, tail, hcons⟩ := exists_cons_of_ne_nil hrest
  have hc : r'.cursor.rest.head? = some c := by rw [hcons, head?_cons]
  obtain ⟨tail', hcons'⟩ : ∃ tail', r.cursor.rest = c :: tail' := head?_eq_some_iff.mp (hk.head.trans hc)
  have hshared : r.atSharedBrace = r'.atSharedBrace := by
    rw [atSharedBrace, h.mode, hk.head, hk.escaped, atSharedBrace]
  obtain ⟨halike, htaken⟩ := step_alike (o := o) hR (h.countLine c) (hk.countLine c) hc
  unfold next
  rw [hcons, hcons', hshared]
  simp only
  cases hbrace : r'.atSharedBrace with
  | true =>
    have hmode : r'.state.mode = .atRule := by
      simp only [atSharedBrace, Bool.and_eq_true, decide_eq_true_eq] at hbrace
      exact hbrace.1.1
    exact ⟨0, rfl, rfl, h.endAtRule hR hmode⟩
  | false =>
    refine ⟨_, rfl, ?_, halike⟩
    rw [← countLine, ← countLine, htaken]
    rfl

/-! ## The end of the text -/

theorem Alike.finishString (h : Alike R s t) (o : Options) : Alike R (s.finishString o) (t.finishString o) := by
  unfold State.finishString
  rw [h.mode]
  split
  · next hmode =>
    have hstring := h.string (hmode ▸ mem_cons_self)
    have hclosed : s.closedString = t.closedString := by
      rw [closedString, hstring.1, hstring.2.1, closedString]
    have hwarn : Alike R (s.warn "Unterminated string closed at end of input")
        (t.warn "Unterminated string closed at end of input") := { h with }
    exact (hwarn.withString hclosed).closeString hmode o
  · exact h

theorem Alike.finishBracket (h : Alike R s t) : Alike R s.finishBracket t.finishBracket := by
  unfold State.finishBracket
  rw [h.mode]
  split
  · next hmode =>
    have hdepth := (h.bracket (hmode ▸ mem_cons_self)).2
    have hpart : s.part ++ String.ofList (replicate (max s.depth 1) ')')
        = t.part ++ String.ofList (replicate (max t.depth 1) ')') := by rw [h.part, hdepth]
    refine popMode ?_ .value (by decide)
    exact { h with part := hpart }
  · exact h

theorem Alike.finishWords (hR : Lasting o R) (h : Alike R s t) : Alike R (s.finishWords o) (t.finishWords o) := by
  unfold State.finishWords
  rw [h.mode]
  split
  · exact h.endDeclaration hR
  · next hmode => exact h.endAtRule hR hmode
  · exact h

/-- The end of the text is the same for both. -/
theorem finish_alike (hR : Lasting o R) (h : Alike R s t) : Alike R (s.finish o) (t.finish o) :=
  (h.finishString o).finishBracket.finishWords hR

end Stylesheet.Reader
