import Stylesheet.Proofs.Cascade
import Stylesheet.Proofs.Document.Twig
import Stylesheet.Proofs.Text.Firm

/-!
# Documents with firm texts

When a document is written, a delimiter stands behind each of its texts: a brace behind the name of a block, a colon
behind a property, and a semicolon or a brace behind a value and behind an at-rule. In a firm document no text escapes
its delimiter.
-/

namespace Stylesheet

open Text (IsFirm)

/-- The semicolon behind the rule is not escaped. -/
def LineAt.Firm (rule : LineAt) : Prop := IsFirm rule.value ∧ (rule.value = "" → IsFirm rule.name)

/-- The child of a block ends with something firm. -/
def Child.Firm : Child → Prop
  | .block _ => True
  | .lineAt rule => rule.Firm
  | .comment _ => True

/-- No text of the block escapes what is written behind it. -/
structure Block.Firm (b : Block) : Prop where
  name : IsFirm b.name
  declarations : ∀ e ∈ b.declarations.entries, IsFirm e.1 ∧ IsFirm e.2.text
  children : ∀ child ∈ b.children, child.Firm

/-- A block that has nothing in it yet. -/
theorem Block.firm_of_name {name : String} (h : IsFirm name) (kind : BlockKind) : Block.Firm { name, kind } :=
  ⟨h, List.forall_mem_nil _, List.forall_mem_nil _⟩

namespace Document

/-- No text of the document escapes what is written behind it. -/
structure Firm (d : Document) : Prop where
  blocks : ∀ id b, d.get? id = some b → b.Firm
  charset : ∀ value ∈ d.charset, IsFirm value
  namespaces : ∀ value ∈ d.namespaces, IsFirm value
  imports : ∀ rule ∈ d.imports, rule.Firm
  tokens : ∀ token ∈ d.tokens, token.kind ≠ .comment → IsFirm token.data

theorem firm_empty : empty.Firm where
  blocks := by
    rintro ⟨index⟩ b hget
    cases index with
    | zero =>
      rw [← Option.some.inj hget]
      exact Block.firm_of_name Text.isFirm_empty .atBlock
    | succ index => simp [get?, empty] at hget
  charset := fun _ hvalue => by cases hvalue
  namespaces := List.forall_mem_nil _
  imports := List.forall_mem_nil _
  tokens := List.forall_mem_nil _

namespace Firm

variable {d : Document}

/-- A block is changed so that it stays firm. -/
theorem modify (h : d.Firm) (id : BlockId) {f : Block → Block} (hf : ∀ b, b.Firm → (f b).Firm) : (d.modify id f).Firm := by
  have hheader : (d.modify id f).charset = d.charset ∧ (d.modify id f).namespaces = d.namespaces ∧
      (d.modify id f).imports = d.imports ∧ (d.modify id f).tokens = d.tokens := by
    unfold Document.modify
    split
    · exact ⟨rfl, rfl, rfl, rfl⟩
    · exact ⟨rfl, rfl, rfl, rfl⟩
  obtain ⟨hcharset, hnamespaces, himports, htokens⟩ := hheader
  refine ⟨fun x b hget => ?_, hcharset ▸ h.charset, hnamespaces ▸ h.namespaces, himports ▸ h.imports, htokens ▸ h.tokens⟩
  rw [get?_modify] at hget
  split at hget
  · obtain ⟨a, ha, rfl⟩ := Option.map_eq_some_iff.mp hget
    exact hf a (h.blocks x a ha)
  · exact h.blocks x b hget

theorem pushChild (h : d.Firm) (parent : BlockId) {child : Child} (hchild : child.Firm) : (d.pushChild parent child).Firm := by
  refine h.modify parent fun b hb => ⟨hb.name, hb.declarations, fun x hx => ?_⟩
  rcases List.mem_append.mp hx with hx | hx
  · exact hb.children x hx
  · rw [List.mem_singleton.mp hx]
    exact hchild

theorem alloc (h : d.Firm) {b : Block} (hb : b.Firm) : (d.alloc b).Firm := by
  refine ⟨fun x c hget => ?_, h.charset, h.namespaces, h.imports, h.tokens⟩
  rw [get?_alloc] at hget
  split at hget
  · rw [← Option.some.inj hget]
    exact hb
  · exact h.blocks x c hget

theorem addBlock (h : d.Firm) (parent : BlockId) {b : Block} (hb : b.Firm) : (d.addBlock parent b).Firm :=
  (h.alloc hb).pushChild parent trivial

/-- A declaration is put into a block. -/
theorem declare (h : d.Firm) (id : BlockId) {property : String} {value : Value} (hproperty : IsFirm property)
    (hvalue : IsFirm value.text) :
    (d.modify id fun b => { b with declarations := b.declarations.insert property value }).Firm := by
  refine h.modify id fun b hb => ⟨hb.name, fun e he => ?_, hb.children⟩
  rcases Declarations.mem_or_eq_of_mem_insert he with he | rfl
  · exact hb.declarations e he
  · exact ⟨hproperty, hvalue⟩

end Firm

end Document

end Stylesheet
