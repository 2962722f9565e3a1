import Stylesheet.Proofs.Reader.Act
import Stylesheet.Proofs.Document.Frames
import Mathlib.Logic.Relation

/-!
# What the reader does to the document

Whatever a step of the reader does, the tree and the stream of the document change in few ways: a comment, an
at-rule without a body or a declaration goes into the innermost block, a block is opened, the innermost block is
closed, or nothing happens to them. `Edit` lists these ways, and `next_edits` and `finish_edits` say that steps and
the end of the text are made of them. So a property of documents that every edit keeps holds for everything that is
read.

A declaration is only made if its value is one that the words read so far give (`declaration?`); `Edit` is told
which values these may be.
-/

namespace Stylesheet.Reader

open Relation (ReflTransGen)
open State

variable {s t : State}

/-- A change of the document together with its open blocks. Values of declarations are `Allowed` ones. -/
inductive Edit (o : Options) (Allowed : Value → Prop) : State → State → Prop
  /-- Nothing happens to the tree and the stream. -/
  | keep {s s' : State} (hblocks : s'.document.blocks = s.document.blocks)
      (htokens : s'.document.tokens = s.document.tokens) (hopen : s'.openBlocks = s.openBlocks) :
      Edit o Allowed s s'
  | comment (s : State) (text : List Char) : Edit o Allowed s (s.addComment o text)
  | lineAt (s : State) (rule : LineAt) : Edit o Allowed s (s.addLineAt o rule)
  | declare (s : State) (property : String) (value : Value) (h : Allowed value)
      (hopen : s.openBlocks ≠ []) : Edit o Allowed s (s.addDeclaration o property value)
  | openSelector (s : State) : Edit o Allowed s (s.openSelector o)
  | openAtBlock (s : State) (body : List Char) : Edit o Allowed s (s.openAtBlock o body)
  | closeBlock (s : State) : Edit o Allowed s (s.closeBlock o)

/-- Edits one after the other. -/
abbrev Edits (o : Options) (Allowed : Value → Prop) : State → State → Prop :=
  ReflTransGen (Edit o Allowed)

variable {o : Options} {Allowed : Value → Prop}

/-- Buffers, modes and the log have no part in the document. -/
theorem Edits.keep {s' : State} (hblocks : s'.document.blocks = s.document.blocks)
    (htokens : s'.document.tokens = s.document.tokens) (hopen : s'.openBlocks = s.openBlocks) :
    Edits o Allowed s s' :=
  .single (.keep hblocks htokens hopen)

/-! ## Declarations and at-rules -/

/-- The end of a declaration puts at most one declaration into the document. -/
theorem endDeclaration_edits (h : ∀ d, s.declaration? o = some d → Allowed d.2) :
    Edits o Allowed s (s.endDeclaration o) := by
  have hcleared : Edits o Allowed s (s.cleared o) := .keep rfl rfl rfl
  rw [State.endDeclaration_eq_elim]
  cases hd : s.declaration? o with
  | none => exact hcleared
  | some d => exact hcleared.tail (.declare _ d.1 d.2 (h d hd) (of_declaration? hd).openBlocks)

/-- An at-rule without a body goes into the header or into the innermost block. -/
theorem addAtRule_cases (o : Options) (s : State) :
    ((s.addAtRule o).document.blocks = s.document.blocks ∧ (s.addAtRule o).document.tokens = s.document.tokens ∧
      (s.addAtRule o).openBlocks = s.openBlocks) ∨ ∃ rule, s.addAtRule o = s.addLineAt o rule := by
  unfold addAtRule
  split
  · exact .inl ⟨rfl, rfl, rfl⟩
  · next name rest _ =>
    split
    · unfold addCharset
      split
      · exact .inl ⟨rfl, rfl, rfl⟩
      · simp only
        split <;> exact .inl ⟨rfl, rfl, rfl⟩
    · unfold addNamespace
      simp only
      split <;> exact .inl ⟨rfl, rfl, rfl⟩
    · unfold addImport
      simp only
      split
      · exact .inl ⟨rfl, rfl, rfl⟩
      · split <;> exact .inl ⟨rfl, rfl, rfl⟩
    · exact .inr ⟨⟨name, Value.joinParts rest⟩, rfl⟩

theorem addAtRule_edits (s : State) : Edits o Allowed s (s.addAtRule o) := by
  rcases addAtRule_cases o s with ⟨hblocks, htokens, hopen⟩ | ⟨rule, hrule⟩
  · exact Edits.keep hblocks htokens hopen
  · rw [hrule]
    exact .single (.lineAt s rule)

theorem endAtRule_edits (s : State) : Edits o Allowed s (s.endAtRule o) := by
  have hflush : Edits o Allowed s s.flushPart := Edits.keep rfl rfl rfl
  have hrule := hflush.trans (addAtRule_edits s.flushPart)
  unfold endAtRule
  generalize s.flushPart.addAtRule o = t at hrule
  exact hrule.tail (.keep rfl rfl rfl)

/-! ## Steps -/

theorem Start.edits {k : Text.Cursor} {c : Char} {n : Nat} (h : Start o k c s t n) : Edits o Allowed s t := by
  cases h with
  | stay => exact .refl
  | run h => exact .keep (by rw [h]) (by rw [h]) (by rw [h])
  | comment =>
    unfold readComment
    simp only
    split <;> exact .single (.comment s _)
  | escape h =>
    obtain ⟨line, new, -, rfl⟩ := readEscape_eq h
    exact .keep rfl rfl rfl
  | atSign => exact .keep rfl rfl rfl

theorem Act.edits {first : State} (h : Act o first s t)
    (hfirst : first.mode = .value → ∀ d, first.declaration? o = some d → Allowed d.2) : Edits o Allowed s t := by
  cases h with
  | write h => exact .keep (by rw [h]) (by rw [h]) (by rw [h])
  | leave =>
    rw [popMode_eq]
    exact .keep rfl rfl rfl
  | openSelector => exact .single (.openSelector s)
  | openAtBlock _ body => exact .single (.openAtBlock s body)
  | closeBlock => exact .single (.closeBlock s)
  | endDeclaration hmode hsame => exact endDeclaration_edits fun d hd => hfirst hmode d (hsame ▸ hd)
  | endAtRule => exact endAtRule_edits s
  | _ => exact .keep rfl rfl rfl

theorem Acts.edits {k : Text.Cursor} {c : Char} {n : Nat} (h : Acts o k c s t n)
    (hs : s.mode = .value → ∀ d, s.declaration? o = some d → Allowed d.2) : Edits o Allowed s t := by
  induction h with
  | start h => exact h.edits
  | act _ hact ih => exact ih.trans (hact.edits hs)

theorem next_edits {r : Reader} (h : r.state.mode = .value → ∀ d, r.state.declaration? o = some d → Allowed d.2) :
    Edits o Allowed r.state (r.next o).state := by
  by_cases hrest : r.cursor.rest = []
  · rw [next_of_nil hrest]
  refine next_cases (P := fun r' => Edits o Allowed r.state r'.state) hrest ?_ ?_
  · exact fun _ => endAtRule_edits r.state
  · intro c tail _ _
    obtain ⟨line, hline⟩ := r.state.countLine_eq c
    have hcount : Edits o Allowed r.state (r.state.countLine c) := by
      rw [hline]
      exact Edits.keep rfl rfl rfl
    refine hcount.trans ((step_acts o _ r.cursor c).edits fun hmode d hd => ?_)
    rw [hline] at hmode hd
    refine h hmode d ?_
    rw [← hd]
    exact declaration?_congr rfl rfl rfl rfl rfl

/-! ## The end of the text -/

/-- The end of the text is made of edits. -/
theorem finish_edits (h : ((s.finishString o).finishBracket).mode = .value →
      ∀ d, ((s.finishString o).finishBracket).declaration? o = some d → Allowed d.2) :
    Edits o Allowed s (s.finish o) := by
  have hclosed : Edits o Allowed s (s.finishString o).finishBracket := by
    refine (finishBracket_acts o s ⟨[], []⟩ ' ').edits fun hmode => ?_
    rwa [finishString, if_neg (by simp [hmode]), finishBracket, if_neg (by simp [hmode]), imp_iff_right hmode] at h
  unfold finish finishWords
  split
  · next hmode => exact hclosed.trans (endDeclaration_edits (h hmode))
  · exact hclosed.trans (endAtRule_edits _)
  · exact hclosed

theorem Edits.induction {s' : State} (h : Edits o Allowed s s') {P : State → Prop} (hs : P s)
    (hedit : ∀ t t', Edit o Allowed t t' → P t → P t') : P s' := by
  induction h with
  | refl => exact hs
  | tail _ hlast ih => exact hedit _ _ hlast ih

/-- The rest of a text is read by edits. -/
theorem run_finish_edits (r : Reader) : Edits o (fun _ => True) r.state ((run o r).state.finish o) := by
  fun_induction run o r with
  | case1 r _ => exact finish_edits fun _ _ _ => trivial
  | case2 r _ ih =>
    have hnext : Edits o (fun _ => True) r.state (r.next o).state := next_edits fun _ _ _ => trivial
    exact hnext.trans ih

/-- **What every edit keeps** holds at the end of the text. -/
theorem read_induction (css : String) {P : State → Prop} (hstart : P (start css).state)
    (hedit : ∀ s s', Edit o (fun _ => True) s s' → P s → P s') : P (((start css).run o).state.finish o) :=
  (run_finish_edits (start css)).induction hstart hedit

end Stylesheet.Reader

namespace Stylesheet

/-! ## The header

The rules about the document as a whole stand beside the tree, and no edit of the tree changes them. -/

namespace Document

/-- The rules of a document about the document as a whole. -/
def header (d : Document) : Option String × List String × List LineAt :=
  (d.charset, d.namespaces, d.imports)

theorem header_modify (d : Document) (id : BlockId) (g : Block → Block) : (d.modify id g).header = d.header := by
  unfold modify
  split <;> rfl

theorem header_addBlock (d : Document) (id : BlockId) (b : Block) : (d.addBlock id b).header = d.header :=
  header_modify _ _ _

end Document

namespace Reader

variable {o : Options}

theorem header_pushToken (s : State) (kind : TokenKind) (data : String) :
    (s.pushToken o kind data).document.header = s.document.header := by
  rw [State.pushToken_eq]
  rfl

theorem header_addComment (s : State) (text : List Char) :
    (s.addComment o text).document.header = s.document.header := by
  unfold State.addComment
  rw [header_pushToken]
  exact Document.header_modify _ _ _

theorem header_addLineAt (s : State) (rule : LineAt) : (s.addLineAt o rule).document.header = s.document.header := by
  unfold State.addLineAt
  exact (Document.header_modify _ _ _).trans (header_pushToken _ _ _)

theorem header_addDeclaration (s : State) (property : String) (value : Value) :
    (s.addDeclaration o property value).document.header = s.document.header := by
  unfold State.addDeclaration
  exact (Document.header_modify _ _ _).trans ((header_pushToken _ _ _).trans (header_pushToken _ _ _))

theorem header_openSelector (s : State) : (s.openSelector o).document.header = s.document.header := by
  unfold State.openSelector
  rw [header_pushToken]
  split
  · rfl
  · exact Document.header_addBlock _ _ _

theorem header_openAtBlock (s : State) (body : List Char) :
    (s.openAtBlock o body).document.header = s.document.header := by
  obtain ⟨parts, hflush⟩ := State.flushPart_eq s
  unfold State.openAtBlock
  rw [header_pushToken, hflush]
  exact Document.header_addBlock _ _ _

theorem header_closeBlock (s : State) : (s.closeBlock o).document.header = s.document.header := by
  unfold State.closeBlock
  split
  · rfl
  · rw [header_pushToken]

theorem header_endDeclaration (s : State) : (s.endDeclaration o).document.header = s.document.header := by
  rw [State.endDeclaration_eq_elim]
  cases s.declaration? o with
  | none => rfl
  | some d => exact header_addDeclaration (s.cleared o) d.1 d.2

end Reader

end Stylesheet
