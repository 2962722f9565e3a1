import Stylesheet.Proofs.Document.Firm
import Stylesheet.Proofs.Reader.Moves
import Stylesheet.Proofs.Value.Firm

/-!
# What the reader stores

Whatever the reader puts into a document comes out of its buffers. If they are firm, so is the document behind the move.
-/

namespace Stylesheet.Reader.State

open Text

variable {o : Options} {s : State}

section

variable (h : s.document.Firm)
include h

theorem firm_pushToken {kind : TokenKind} {data : String} (hdata : kind ≠ .comment → IsFirm data) :
    (s.pushToken o kind data).document.Firm := by
  unfold pushToken
  split
  · refine ⟨h.blocks, h.charset, h.namespaces, h.imports, fun token htoken => ?_⟩
    rcases List.mem_append.mp htoken with htoken | htoken
    · exact h.tokens token htoken
    · rw [List.mem_singleton.mp htoken]
      exact hdata
  · exact h

theorem firm_addComment (text : List Char) : (s.addComment o text).document.Firm := by
  have hcomment : Child.Firm (.comment (String.ofList text)) := trivial
  refine firm_pushToken ?_ fun hkind => absurd rfl hkind
  exact h.pushChild s.current hcomment

theorem firm_readComment (k : Text.Cursor) : (s.readComment o k).1.document.Firm := by
  unfold readComment
  simp only
  split <;> exact firm_addComment h _

theorem firm_closeBlock : (s.closeBlock o).document.Firm := by
  unfold closeBlock
  split
  · exact h
  · refine firm_pushToken ?_ fun _ => isFirm_empty
    exact h

/-! ## Blocks -/

theorem firm_openSelector (hname : IsFirm (trim s.selector)) : (s.openSelector o).document.Firm := by
  have hfirm : IsFirm (if o.lowercaseSelectors then lowercase (trim s.selector) else trim s.selector) := by
    split
    · exact (isFirm_lowercase _).mpr hname
    · exact hname
  unfold openSelector
  simp only
  split
  · refine firm_pushToken ?_ fun _ => hfirm
    exact h
  · refine firm_pushToken ?_ fun _ => hfirm
    exact h.addBlock s.current (Block.firm_of_name hfirm _)

theorem firm_openAtBlock (hends : EndsFirm s.flushPart.parts) (body : List Char) :
    (s.openAtBlock o body).document.Firm := by
  have hname : IsFirm ("@" ++ Value.joinParts s.flushPart.parts) :=
    (isFirm_append (by decide) _).mpr (Value.isFirm_joinParts hends)
  have hflush : s.flushPart.document.Firm := h
  unfold openAtBlock
  generalize s.flushPart = t at hname hflush
  refine firm_pushToken ?_ fun _ => hname
  exact hflush.addBlock _ (Block.firm_of_name hname .atBlock)

/-! ## At-rules -/

theorem firm_addCharset {value : String} (hvalue : IsFirm value) : (s.addCharset value).document.Firm := by
  have hcharset : Document.Firm { s.document with charset := some value } :=
    ⟨h.blocks, fun x hx => by rwa [← Option.some.inj hx], h.namespaces, h.imports, h.tokens⟩
  unfold addCharset
  split
  · exact h
  · simp only
    split <;> exact hcharset

theorem firm_addNamespace {value : String} (hvalue : IsFirm value) : (s.addNamespace value).document.Firm := by
  have hnamespaces : Document.Firm { s.document with namespaces := s.document.namespaces ++ [value] } := by
    refine ⟨h.blocks, h.charset, fun x hx => ?_, h.imports, h.tokens⟩
    rcases List.mem_append.mp hx with hx | hx
    · exact h.namespaces x hx
    · rwa [List.mem_singleton.mp hx]
  unfold addNamespace
  simp only
  split <;> exact hnamespaces

theorem firm_addImport {value : String} (hvalue : IsFirm value) : (s.addImport value).document.Firm := by
  have himports : Document.Firm { s.document with imports := s.document.imports ++ [⟨"import", value⟩] } := by
    refine ⟨h.blocks, h.charset, h.namespaces, fun x hx => ?_, h.tokens⟩
    rcases List.mem_append.mp hx with hx | hx
    · exact h.imports x hx
    · rw [List.mem_singleton.mp hx]
      have hname : IsFirm "import" := by decide
      exact ⟨hvalue, fun _ => hname⟩
  unfold addImport
  simp only
  split
  · exact himports
  · split <;> exact himports

theorem firm_addLineAt {rule : LineAt} (hrule : rule.Firm) : (s.addLineAt o rule).document.Firm := by
  have hrender : IsFirm rule.render := by
    -- the semicolon is part of what is written
    have hlast : rule.render.toList.getLast? = some ';' := by
      unfold LineAt.render
      split <;> rw [String.toList_append, List.getLast?_append_of_ne_nil _ (by decide)] <;> rfl
    exact isFirm_of_getLast? hlast (by decide)
  exact (firm_pushToken h fun _ => hrender).pushChild _ hrule

theorem firm_addAtRule (hends : EndsFirm s.parts) : (s.addAtRule o).document.Firm := by
  unfold addAtRule
  split
  · exact h
  · next name rest hparts =>
    rw [hparts] at hends
    have hvalue : IsFirm (Value.joinParts rest) := Value.isFirm_joinParts hends.tail
    have hrule : LineAt.Firm ⟨name, Value.joinParts rest⟩ := by
      refine ⟨hvalue, fun hempty => ?_⟩
      -- a rule without a value has one part only
      have hnil : rest = [] := by
        by_contra hne
        exact Value.joinParts_ne_empty hends.tail hne hempty
      rw [hnil] at hends
      exact (hends name rfl).2
    split
    · exact firm_addCharset h hvalue
    · exact firm_addNamespace h hvalue
    · exact firm_addImport h hvalue
    · exact firm_addLineAt h hrule

theorem firm_endAtRule (hends : EndsFirm s.flushPart.parts) : (s.endAtRule o).document.Firm := by
  have hflush : s.flushPart.document.Firm := h
  have hadd := firm_addAtRule (o := o) hflush hends
  unfold endAtRule
  generalize s.flushPart.addAtRule o = t at hadd
  exact hadd

/-! ## Declarations -/

theorem firm_addDeclaration {property : String} {value : Value} (hproperty : IsFirm property)
    (hvalue : IsFirm value.text) : (s.addDeclaration o property value).document.Firm := by
  have hrender : IsFirm value.render := by
    unfold Value.render
    split
    · exact (isFirm_append hvalue _).mpr (by decide)
    · exact hvalue
  exact (firm_pushToken (firm_pushToken h fun _ => hproperty) fun _ => hrender).declare _ hproperty hvalue

theorem firm_endDeclaration (hproperty : IsFirm (trim s.property))
    (hends : EndsFirm s.flushPart.parts) (hmarks : MarksFirm s.flushPart.parts) :
    (s.endDeclaration o).document.Firm := by
  rw [endDeclaration_eq_elim]
  cases hd : s.declaration? o with
  | none => exact h
  | some d =>
    have hmakes := of_declaration? hd
    refine firm_addDeclaration (s := s.cleared o) h ?_ ?_
    · rw [hmakes.property]
      exact (isFirm_lower _).mpr hproperty
    · rw [hmakes.text]
      exact isFirm_declared o _ _ hends hmarks

end

end Stylesheet.Reader.State
