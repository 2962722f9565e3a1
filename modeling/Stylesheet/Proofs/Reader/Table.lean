import Stylesheet.Proofs.Document.Declared
import Stylesheet.Proofs.Reader.Growth

/-!
# The table of what has been read

What holds for a table without declarations, and is kept wherever the reader puts something into it, holds for the table
of everything that is read (`Edit.keeps`). The declarations in the table are those that were read into blocks that had
none (`read_declares`).
-/

namespace Stylesheet

namespace Reader

open State

variable {o : Options} {Allowed : Value → Prop}

theorem State.blocks_pushToken (s : State) (kind : TokenKind) (data : String) :
    (s.pushToken o kind data).document.blocks = s.document.blocks := by
  rw [pushToken_eq]

/-- A condition on the blocks of a document is kept by every edit, if it is kept where a comment or an at-rule without a
body is put into a block, where a block gets a declaration and where a new one is opened. -/
theorem Edit.keeps {s s' : State} (h : Edit o Allowed s s') {I : Document → Prop}
    (hcongr : ∀ d d', d'.blocks = d.blocks → I d → I d')
    (hpush : ∀ d id child, child.blockId? = none → I d → I (d.pushChild id child))
    (hdeclare : ∀ d id property value, Allowed value → I d →
      I (d.modify id fun b => { b with declarations := b.declarations.insert property value }))
    (hopen : ∀ d id name kind, kind = .atBlock ∨ kind = .selector (fragmentsOf name) → I d →
      I (d.addBlock id { name, kind })) (hs : I s.document) : I s'.document := by
  cases h with
  | keep hblocks => exact hcongr _ _ hblocks hs
  | comment text => exact hcongr _ _ (blocks_pushToken _ _ _) (hpush _ _ _ rfl hs)
  | lineAt rule => exact hpush _ _ _ rfl (hcongr _ _ (blocks_pushToken _ _ _) hs)
  | declare property value hallowed =>
    refine hdeclare _ _ property value hallowed (hcongr _ _ ?_ hs)
    rw [blocks_pushToken, blocks_pushToken]
  | openAtBlock body =>
    obtain ⟨parts, hflush⟩ := flushPart_eq s
    unfold State.openAtBlock
    rw [hflush]
    exact hcongr _ _ (blocks_pushToken _ _ _) (hopen _ _ _ _ (.inl rfl) hs)
  | openSelector =>
    unfold State.openSelector
    refine hcongr _ _ (blocks_pushToken _ _ _) ?_
    split
    · exact hs
    · exact hopen _ _ _ _ (.inr rfl) hs
  | closeBlock =>
    unfold State.closeBlock
    split
    · exact hs
    · exact hcongr _ _ (blocks_pushToken _ _ _) hs

/-- What holds for no declarations, and is kept where one more is read, is kept by every edit. -/
theorem Edit.declares {s s' : State} (h : Edit o Allowed s s') {P : Declarations → Prop} (hempty : P .empty)
    (hinsert : ∀ ds property value, Allowed value → P ds → P (ds.insert property value))
    (hs : s.document.Declares P []) : s'.document.Declares P [] := by
  refine h.keeps (I := fun d => d.Declares P []) ?_ ?_ ?_ ?_ hs
  · exact fun _ _ hblocks hd => hd.congr hblocks
  · exact fun _ _ _ _ hd => hd.modify_same fun _ => rfl
  · exact fun _ _ property value hallowed hd => hd.modify fun hid b hb => hinsert _ _ _ hallowed (hd _ b hb hid)
  · exact fun _ id _ _ _ hd => hd.addBlock id hempty

/-- **The declarations of what has been read** satisfy what holds for none and is kept where one more is read. -/
theorem read_declares (o : Options) (css : String) {P : Declarations → Prop} (hempty : P .empty)
    (hinsert : ∀ ds property value, P ds → P (ds.insert property value)) : (Document.read o css).1.Declares P [] :=
  read_induction css (P := fun s => s.document.Declares P []) (Document.declares_empty hempty [])
    fun _ _ hedit => hedit.declares hempty fun ds property value _ => hinsert ds property value

end Reader

end Stylesheet
