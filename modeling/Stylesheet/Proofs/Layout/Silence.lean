import Stylesheet.Proofs.Layout.Node

/-!
# When nothing is written

Every piece of a document that is written leaves a text that is not empty, so nothing is written at all exactly where
every piece is left out. Without comments, these are the pieces of a tree that are hidden (`Node.isHidden`), and the
comments of a stream.

A node that is bare, with no declarations and no at-rule without a body anywhere in it, is hidden. The converse does not
hold: a selector without declarations hides whatever else stands in it.
-/

namespace Stylesheet

open List Node

instance (d : Document) : Decidable d.Headless :=
  decidable_of_iff (d.charset = none ∧ d.imports = [] ∧ d.namespaces = [])
    ⟨fun ⟨charset, imports, namespaces⟩ => ⟨charset, imports, namespaces⟩,
      fun h => ⟨h.charset, h.imports, h.namespaces⟩⟩

namespace Node

mutual

/-- There are no declarations and no at-rules without a body in the node. -/
def isBare : Node → Bool
  | .block _ _ ds ns => ds.isEmpty && areBare ns
  | .lineAt _ => false
  | .comment _ => true

/-- There are no declarations and no at-rules without a body in the nodes. -/
def areBare : List Node → Bool
  | [] => true
  | n :: ns => n.isBare && areBare ns

end

theorem areBare_append (ns ms : List Node) : areBare (ns ++ ms) = (areBare ns && areBare ms) := by
  induction ns with
  | nil => rfl
  | cons n ns ih => rw [cons_append, areBare, areBare, ih, Bool.and_assoc]

mutual

/-- Nothing of the node is written without comments. -/
def isHidden : Node → Bool
  | .block _ kind ds ns => ds.isEmpty && (kind != .atBlock || areHidden ns)
  | .lineAt _ => false
  | .comment _ => true

/-- Nothing of the nodes is written without comments. -/
def areHidden : List Node → Bool
  | [] => true
  | n :: ns => n.isHidden && areHidden ns

end

mutual

theorem isHidden_of_isBare : ∀ n : Node, n.isBare = true → n.isHidden = true
  | .block _ _ ds ns, h => by
    rw [isBare, Bool.and_eq_true] at h
    rw [isHidden, h.1, areHidden_of_areBare ns h.2, Bool.or_true, Bool.and_true]
  | .lineAt _, h => h
  | .comment _, _ => rfl

theorem areHidden_of_areBare : ∀ ns : List Node, areBare ns = true → areHidden ns = true
  | [], _ => rfl
  | n :: ns, h => by
    rw [areBare, Bool.and_eq_true] at h
    rw [areHidden, isHidden_of_isBare n h.1, areHidden_of_areBare ns h.2, Bool.and_true]

end

end Node

namespace Layout

variable {l : Layout} {d : Document}

/-! ## The header -/

theorem headerLines_ne_empty {line : String} (h : line ∈ headerLines d) : line ≠ "" := by
  simp only [headerLines, mem_append, mem_map] at h
  rcases h with (⟨charset, -, rfl⟩ | ⟨rule, -, rfl⟩) | ⟨value, -, rfl⟩
  · simp
  · exact rule.render_ne_empty
  · simp

theorem headerLines_eq_nil_iff : headerLines d = [] ↔ d.Headless := by
  simp only [headerLines, append_eq_nil_iff, map_eq_nil_iff, Option.toList_eq_nil_iff, and_assoc]
  exact ⟨fun ⟨charset, imports, namespaces⟩ => ⟨charset, imports, namespaces⟩,
    fun h => ⟨h.charset, h.imports, h.namespaces⟩⟩

theorem header_eq_empty_iff : l.header d = "" ↔ d.Headless := by
  rw [← headerLines_eq_nil_iff, header]
  cases hlines : headerLines d with
  | nil => simp
  | cons line lines =>
    have hne : line ≠ "" := headerLines_ne_empty (hlines ▸ mem_cons_self)
    simp [String.append_eq_empty_iff, hne]

/-! ## The tree -/

theorem block_eq_none_iff {depth : Nat} {name : String} {kind : BlockKind} {ds : Declarations} {inner : List String} :
    l.block depth { name, kind, declarations := ds } inner = none
      ↔ ds.isEmpty = true ∧ (kind ≠ .atBlock ∨ inner = []) := by
  have hselector : ({ name, kind, declarations := ds } : Block).isSelector = (kind != .atBlock) := by
    cases kind <;> rfl
  unfold block
  rw [hselector]
  split
  · next h => simpa [or_comm] using h
  · next h => simpa [or_comm] using h

mutual

theorem node_eq_none_iff (hl : l.comments = false) (depth : Nat) : ∀ n : Node, l.node depth n = none ↔ n.isHidden = true
  | .block name kind ds ns => by
    rw [node, block_eq_none_iff, nodes_eq_nil_iff hl (depth + 1) ns, isHidden]
    simp
  | .lineAt _ => by simp [node, isHidden]
  | .comment _ => by simp [node, isHidden, hl]

/-- **Nothing is written** for nodes exactly if they are hidden. -/
theorem nodes_eq_nil_iff (hl : l.comments = false) (depth : Nat) :
    ∀ ns : List Node, l.nodes depth ns = [] ↔ areHidden ns = true
  | [] => by simp [nodes, areHidden]
  | n :: ns => by
    rw [nodes, append_eq_nil_iff, Option.toList_eq_nil_iff, node_eq_none_iff hl depth n,
      nodes_eq_nil_iff hl depth ns, areHidden, Bool.and_eq_true]

end

/-- What is written for a node is not empty. -/
theorem ne_empty_of_node_eq_some {depth : Nat} {n : Node} {s : String} (h : l.node depth n = some s) : s ≠ "" := by
  cases n with
  | block name kind ds ns =>
    rw [node, block] at h
    split at h
    · cases h
    · rw [← Option.some.inj h]
      simp
  | lineAt rule =>
    rw [node] at h
    rw [← Option.some.inj h]
    simp [rule.render_ne_empty]
  | comment text =>
    rw [node] at h
    split at h
    · rw [← Option.some.inj h]
      simp
    · cases h

theorem intercalate_eq_empty_iff {sep : String} {items : List String} (h : ∀ s ∈ items, s ≠ "") :
    String.intercalate sep items = "" ↔ items = [] := by
  cases items with
  | nil => simp
  | cons s items =>
    have hs : s ≠ "" := h s mem_cons_self
    cases items <;> simp [String.intercalate_cons_cons, hs]

/-- The text of a tree is empty exactly if there is no header and all of it is hidden. -/
theorem tree_eq_empty_iff (hl : l.comments = false) :
    l.tree d = "" ↔ d.Headless ∧ areHidden d.tree = true := by
  have hitems : ∀ s ∈ l.nodes 0 d.tree, s ≠ "" := by
    intro s hs
    rw [nodes_eq_filterMap] at hs
    obtain ⟨n, -, hn⟩ := mem_filterMap.mp hs
    exact ne_empty_of_node_eq_some hn
  have htree : l.children d d.maxDepth 0 Document.root = l.nodes 0 d.tree := children_eq_nodes l d _ _ _
  rw [tree, htree, String.append_eq_empty_iff, String.append_eq_empty_iff, header_eq_empty_iff,
    intercalate_eq_empty_iff hitems, nodes_eq_nil_iff hl]
  constructor
  · rintro ⟨⟨hheadless, -⟩, hhidden⟩
    exact ⟨hheadless, hhidden⟩
  · rintro ⟨hheadless, hhidden⟩
    refine ⟨⟨hheadless, ?_⟩, hhidden⟩
    rw [header_eq_empty_iff.mpr hheadless]
    rfl

/-! ## The stream -/

/-- The text of a stream is empty exactly if there is nothing but comments in it. -/
theorem stream_eq_empty_iff (hl : l.comments = false) {tokens : List Token}
    (h : ∀ t ∈ tokens, t.kind = .lineAt → t.data ≠ "") (depth : Nat) :
    l.stream depth tokens = "" ↔ ∀ t ∈ tokens, t.kind = .comment := by
  induction tokens generalizing depth with
  | nil => simp [stream]
  | cons t tokens ih =>
    obtain ⟨kind, data⟩ := t
    obtain ⟨ht, htokens⟩ := forall_mem_cons.mp h
    cases kind with
    | comment => simp [stream, hl, ih htokens]
    | lineAt => simp [stream, ht rfl]
    | _ => simp [stream]

end Layout

end Stylesheet
