import Stylesheet.Proofs.Layout.Silence
import Stylesheet.Proofs.Reader.Stream
import Stylesheet.Proofs.Tidy.Safety

/-!
# Documents with nothing to write

A run fails on a document that is empty. What counts there is what stands in the table and in the stream, not what is
written of it. A document that is empty is written as the empty text, but a *muted* one is too, and it is not empty: one
with nothing but comments in its stream, or one whose declarations and at-rules are all hidden in selectors without
declarations. These are all documents for which the two differ (`emptyDocument_iff_iff_not_muted`).
-/

namespace Stylesheet

open Twig Node

/-! ## The blocks of a table and the nodes of its tree -/

namespace Twig

/-- The nodes of twigs are bare if there is no at-rule without a body among them and all blocks are bare. -/
theorem areBare_nodesOf (ts : List Twig) : areBare (nodesOf ts) = true ↔
    (ts.map child).any Child.isLineAt = false ∧ ∀ e ∈ entriesOf ts, e.2.isBare = true := by
  induction ts using listInduction with
  | nil => simp [nodesOf, areBare, entriesOf]
  | block id h cs ts hcs hts =>
    simp only [nodesOf, nodes, List.nil_append, areBare, isBare, Bool.and_eq_true, hcs, hts, List.map_cons,
      child, List.any_cons, Child.isLineAt, Bool.false_or, entriesOf, entries, List.cons_append, List.forall_mem_cons,
      List.forall_mem_append, Block.isBare, Head.declarations_block, Head.children_block, Bool.not_eq_true']
    tauto
  | gone _ ts hts => exact hts
  | lineAt _ ts _ => simp [nodesOf, nodes, areBare, isBare, child, Child.isLineAt]
  | comment _ ts hts => exact hts

end Twig

namespace Document

variable {d : Document} {ts : List Twig}

/-- **A document is empty** if it has no header and no stream and all nodes of its tree are bare. -/
theorem Plants.isEmpty_iff (hp : d.Plants ts) :
    d.isEmpty = true ↔ d.Headless ∧ d.tokens = [] ∧ areBare d.tree = true := by
  have hlive : d.liveBlocks.all Block.isBare = true ↔ areBare d.tree = true := by
    rw [hp.tree_eq, areBare_nodesOf, List.all_eq_true]
    have hroot : (Head.root.block (ts.map child)).isBare = true ↔ (ts.map child).any Child.isLineAt = false := by
      simp [Block.isBare, Head.root, Head.block, Declarations.isEmpty, Declarations.empty]
    rw [← hroot, ← List.forall_mem_cons (p := fun e : BlockId × Block => e.2.isBare = true)
      (a := (root, Head.root.block (ts.map child)))]
    constructor
    · exact fun h e he => h e.2 (mem_liveBlocks.mpr ⟨e.1, hp.exact.holds e he⟩)
    · intro h b hb
      obtain ⟨id, hget⟩ := mem_liveBlocks.mp hb
      exact h (id, b) ((hp.exact.get?_iff id b).mp hget)
  simp only [isEmpty, Bool.and_eq_true, hlive, Option.isNone_iff_eq_none, List.isEmpty_iff, and_assoc]
  constructor
  · rintro ⟨hcharset, himports, hnamespaces, htokens, hbare⟩
    exact ⟨⟨hcharset, himports, hnamespaces⟩, htokens, hbare⟩
  · rintro ⟨hheadless, htokens, hbare⟩
    exact ⟨hheadless.charset, hheadless.imports, hheadless.namespaces, htokens, hbare⟩

/-- The document is not empty, and still nothing of it is written: its stream is of comments, or everything in its tree
is hidden and not all of it is bare. -/
def Muted (o : Options) (d : Document) : Prop :=
  d.Headless ∧
    if o.preserveCss then d.tokens ≠ [] ∧ ∀ token ∈ d.tokens, token.kind = .comment
    else areHidden d.tree = true ∧ areBare d.tree = false

instance (o : Options) (d : Document) : Decidable (d.Muted o) := inferInstanceAs (Decidable (_ ∧ _))

end Document

/-- Where one condition is weaker than another, they differ if it holds without the other. -/
theorem and_iff_and_iff {p weak strong : Prop} (h : strong → weak) :
    (p ∧ strong → p ∧ weak) ∧ ((p ∧ strong ↔ p ∧ weak) ↔ ¬ (p ∧ weak ∧ ¬ strong)) := by
  tauto

/-- **Emptiness and silence.** Without comments, an empty document is written as the empty text, and the converse fails
for muted documents, and for no others. -/
theorem emptyDocument_iff_iff_not_muted (o : Options) (css : String) (h : o.preserveComments = false) :
    ((tidy o css).result = .error .emptyDocument → (tidied o css).1.render o = "") ∧
      (((tidy o css).result = .error .emptyDocument ↔ (tidied o css).1.render o = "") ↔ ¬ (tidied o css).1.Muted o) := by
  obtain ⟨ts, -, hbecomes⟩ := tidied_becomes o css
  obtain ⟨hstream, hlineAt⟩ := Reader.read_tokens o css
  have htokens := hbecomes.leads.tokens_eq
  have hcomments : (Layout.ofOptions o).comments = false := h
  have hresult : (tidy o css).result = .error .emptyDocument ↔ (tidied o css).1.isEmpty = true := by
    rw [result_tidy]
    split <;> simp_all
  rw [hresult, Document.Plants.isEmpty_iff hbecomes.bears, Document.Muted, Document.render]
  cases ho : o.preserveCss with
  | true =>
    -- the tree is not written, but without a stream there is no tree
    have hd : (tidied o css).1 = (Document.read o css).1 := by simp [tidied, ho]
    rw [hd]
    have hbare : (Document.read o css).1.tokens = [] → Node.areBare (Document.read o css).1.tree = true := by
      intro hnil
      rw [Reader.tree_eq_nil_of_tokens ho hnil]
      rfl
    rw [and_iff_left_of_imp hbare, if_pos rfl, if_pos rfl, String.append_eq_empty_iff, Layout.header_eq_empty_iff,
      Layout.stream_eq_empty_iff hcomments hlineAt, and_comm (a := _ ≠ _)]
    refine and_iff_and_iff fun hnil => ?_
    rw [hnil]
    exact fun _ hmem => absurd hmem List.not_mem_nil
  | false =>
    have hnil : (tidied o css).1.tokens = [] := htokens.trans (hstream ho)
    rw [and_iff_right hnil, if_neg Bool.false_ne_true, if_neg Bool.false_ne_true, Layout.tree_eq_empty_iff hcomments,
      ← Bool.not_eq_true]
    exact and_iff_and_iff (Node.areHidden_of_areBare _)

/-- A selector without declarations in a rule, and a comment. -/
def emptySelector : String := "@media x\x7ba\x7b\x7d\x7d/*y*/"

theorem emptyDocument_emptySelector :
    ({} : Options).preserveComments = false ∧ ¬ (tidied {} emptySelector).1.Muted {} ∧
      (tidy {} emptySelector).result = .error .emptyDocument ∧ (tidied {} emptySelector).1.render {} = "" := by
  obtain ⟨hnot, hempty⟩ := Prod.mk.inj (Reader.read_view
    (fun d => (decide ((d.improve {}).1.Muted {}), (d.improve {}).1.isEmpty)) {} emptySelector 20
    (by decide +kernel) (by decide +kernel : _ = (false, true)))
  rw [← fst_tidied rfl] at hnot hempty
  have hresult : (tidy {} emptySelector).result = .error .emptyDocument := by rw [result_tidy, if_pos hempty]
  exact ⟨rfl, of_decide_eq_false hnot, hresult, (emptyDocument_iff_iff_not_muted {} emptySelector rfl).1 hresult⟩

/-- A page in a selector without declarations. -/
def hiddenPage : String := "a\x7b@page\x7bmargin:0\x7d\x7d"

/-- **Nothing is written and no error is reported** for a page that is hidden in a selector, and for a comment where the
layout of the source is kept. -/
theorem render_hiddenPage :
    (tidy {} hiddenPage).result ≠ .error .emptyDocument ∧ (tidied {} hiddenPage).1.render {} = "" ∧
    (tidy { preserveCss := true } "/*x*/").result ≠ .error .emptyDocument ∧
      (tidied { preserveCss := true } "/*x*/").1.render { preserveCss := true } = "" := by
  obtain ⟨hpage, hpageText⟩ := Prod.mk.inj (Reader.read_view
    (fun d => ((d.improve {}).1.isEmpty, (d.improve {}).1.render {})) {} hiddenPage 20
    (by decide +kernel) (by decide +kernel : _ = (false, "")))
  rw [← fst_tidied rfl] at hpage hpageText
  obtain ⟨hcomment, hcommentText⟩ := Prod.mk.inj (Reader.read_view
    (fun d => (d.isEmpty, d.render { preserveCss := true })) { preserveCss := true } "/*x*/" 5
    (by decide +kernel) (by decide +kernel : _ = (false, "")))
  refine ⟨?_, hpageText, ?_, hcommentText⟩
  · rw [result_tidy, hpage]
    exact nofun
  · have hd : (tidied { preserveCss := true } "/*x*/").1.isEmpty = false := hcomment
    rw [result_tidy, hd]
    exact nofun

end Stylesheet
