import Stylesheet.Proofs.Document.Twig

/-!
# Walks over a table

A walk goes down from a block to everything it refers to. If the table holds the twigs of the block, the walk meets
their blocks in the order in which they stand, and a block that is gone is met where it is still referred to
(`walkFrom_idsOf`). A descent as deep as there are entries is deep enough.

So a block is removed together with all the entries of its twig, and nothing else is (`Bears.remove`).

`Document.Plants d ts` says that a document is nothing but its root with the given twigs. Its tree, its walk and the
blocks that are there are then read off the twigs.
-/

namespace Stylesheet

open List

namespace Twig

mutual

/-- The blocks that a walk over the twig meets. -/
def walked : Twig → List BlockId
  | block id _ cs => id :: walkedOf cs
  | gone id => [id]
  | _ => []

/-- The blocks that a walk over the twigs meets. -/
def walkedOf : List Twig → List BlockId
  | [] => []
  | t :: ts => t.walked ++ walkedOf ts

end

mutual

/-- The node of the twig without identifiers, if it is not gone. -/
def nodes : Twig → List Node
  | block _ h cs => [.block h.name h.kind h.declarations (nodesOf cs)]
  | lineAt rule => [.lineAt rule]
  | comment text => [.comment text]
  | gone _ => []

/-- The nodes of the twigs without identifiers. -/
def nodesOf : List Twig → List Node
  | [] => []
  | t :: ts => t.nodes ++ nodesOf ts

end

/-- A walk meets the blocks of the entries, and those that are lost. -/
theorem mem_walkedOf {id : BlockId} (ts : List Twig) :
    id ∈ walkedOf ts ↔ id ∈ (entriesOf ts).map Prod.fst ∨ id ∈ lostOf ts := by
  induction ts using listInduction with
  | nil => simp [walkedOf, entriesOf, lostOf]
  | block id' h cs ts hcs hts =>
    simp only [walkedOf, walked, entriesOf, entries, lostOf, lost, mem_append, map_append, mem_cons, map_cons, hcs, hts]
    tauto
  | gone id' ts hts =>
    simp only [walkedOf, walked, entriesOf, entries, lostOf, lost, mem_append, mem_singleton, nil_append, hts]
    tauto
  | lineAt _ ts hts => exact hts
  | comment _ ts hts => exact hts

/-- Where nothing is lost, a walk meets the blocks of the entries in order. -/
theorem walkedOf_eq (ts : List Twig) (hlost : lostOf ts = []) : walkedOf ts = (entriesOf ts).map Prod.fst := by
  induction ts using listInduction with
  | nil => rfl
  | block id h cs ts hcs hts =>
    rw [lostOf, lost, append_eq_nil_iff] at hlost
    rw [walkedOf, walked, entriesOf, entries, map_append, map_cons, hcs hlost.1, hts hlost.2]
  | gone id ts _ => cases hlost
  | lineAt _ ts hts => exact hts hlost
  | comment _ ts hts => exact hts hlost

theorem idsOf_subset_walkedOf (ts : List Twig) : idsOf ts ⊆ walkedOf ts := by
  intro id hid
  rw [mem_walkedOf]
  rcases mem_idsOf hid with ⟨hd, cs, hmem⟩ | hmem
  · exact .inl (mem_map.mpr ⟨_, mem_entriesOf.mpr ⟨_, hmem, by rw [entries]; exact mem_cons_self⟩, rfl⟩)
  · exact .inr (mem_lostOf.mpr ⟨_, hmem, by rw [lost]; exact mem_cons_self⟩)

@[simp] theorem nodesOf_append (ts us : List Twig) : nodesOf (ts ++ us) = nodesOf ts ++ nodesOf us := by
  induction ts with
  | nil => rfl
  | cons t ts ih => rw [cons_append, nodesOf, nodesOf, ih, append_assoc]

end Twig

namespace Document

open Twig

/-! ## Walking over twigs -/

theorem holds_cons_block {d : Document} {id : BlockId} {hd : Head} {cs ts : List Twig} :
    d.Holds (entriesOf (.block id hd cs :: ts)) ↔
      d.get? id = some (hd.block (cs.map child)) ∧ d.Holds (entriesOf cs) ∧ d.Holds (entriesOf ts) := by
  rw [entriesOf, entries, cons_append, Holds, forall_mem_cons, forall_mem_append]
  rfl

/-- **A walk** meets what the twigs stand for, if the descent is deeper than there are entries. -/
theorem walkFrom_idsOf {d : Document} (fuel : Nat) (ts : List Twig) (h : d.Holds (entriesOf ts))
    (hlost : ∀ id ∈ lostOf ts, d.get? id = none) (hfuel : (entriesOf ts).length < fuel) :
    (idsOf ts).flatMap (d.walkFrom fuel) = walkedOf ts := by
  induction ts using listInduction generalizing fuel with
  | nil => rfl
  | block id hd cs ts hcs hts =>
    obtain ⟨hget, hinner, hrest⟩ := holds_cons_block.mp h
    simp only [entriesOf, entries, length_append, length_cons] at hfuel
    simp only [lostOf, lost, forall_mem_append] at hlost
    obtain ⟨fuel, rfl⟩ : ∃ n, fuel = n + 1 := ⟨fuel - 1, by omega⟩
    have hchildren : d.childBlocks id = idsOf cs := by
      rw [childBlocks, hget]
      rfl
    rw [idsOf_cons_block, flatMap_cons, hts _ hrest hlost.2 (by omega), walkFrom, hchildren,
      hcs fuel hinner hlost.1 (by omega)]
    rfl
  | gone id ts hts =>
    simp only [lostOf, lost, singleton_append, forall_mem_cons] at hlost
    obtain ⟨fuel, rfl⟩ : ∃ n, fuel = n + 1 := ⟨fuel - 1, by omega⟩
    have hchildren : d.childBlocks id = [] := by
      rw [childBlocks, hlost.1]
      rfl
    rw [idsOf_cons_gone, flatMap_cons, hts _ h hlost.2 hfuel, walkFrom, hchildren]
    rfl
  | lineAt _ ts hts => exact hts fuel h hlost hfuel
  | comment _ ts hts => exact hts fuel h hlost hfuel

/-- Looking up what twigs refer to gives their nodes, if the descent is as deep as there are entries. -/
theorem filterMap_childNode {d : Document} (fuel : Nat) (ts : List Twig) (h : d.Holds (entriesOf ts))
    (hlost : ∀ id ∈ lostOf ts, d.get? id = none) (hfuel : (entriesOf ts).length ≤ fuel) :
    (ts.map child).filterMap (d.childNode (d.nodes fuel)) = nodesOf ts := by
  induction ts using listInduction generalizing fuel with
  | nil => rfl
  | block id hd cs ts hcs hts =>
    obtain ⟨hget, hinner, hrest⟩ := holds_cons_block.mp h
    simp only [entriesOf, entries, length_append, length_cons] at hfuel
    simp only [lostOf, lost, forall_mem_append] at hlost
    obtain ⟨fuel, rfl⟩ : ∃ n, fuel = n + 1 := ⟨fuel - 1, by omega⟩
    have hnodes : d.nodes (fuel + 1) id = Twig.nodesOf cs := by
      rw [Document.nodes, hget]
      exact hcs fuel hinner hlost.1 (by omega)
    rw [map_cons, child, filterMap_cons, childNode, hget]
    simp only [Option.map_some, hnodes, Twig.nodesOf, Twig.nodes, hts (fuel + 1) hrest hlost.2 (by omega),
      singleton_append]
    rfl
  | gone id ts hts =>
    simp only [lostOf, lost, singleton_append, forall_mem_cons] at hlost
    rw [map_cons, child, filterMap_cons, childNode, hlost.1]
    simpa [Twig.nodesOf, Twig.nodes] using hts fuel h hlost.2 hfuel
  | lineAt _ ts hts => simpa [child, childNode, Twig.nodesOf, Twig.nodes] using hts fuel h hlost hfuel
  | comment _ ts hts => simpa [child, childNode, Twig.nodesOf, Twig.nodes] using hts fuel h hlost hfuel

/-! ## Removing a block -/

namespace Bears

variable {d : Document} {parent id : BlockId} {h hd : Head} {ts left right cs : List Twig}
  {rest : List (BlockId × Block)}

theorem length_lt (hb : d.Bears parent h ts rest) : (entriesOf ts).length < d.blocks.size := by
  have hle := hb.exact.holds.length_le hb.exact.nodup
  simp only [length_cons, length_append] at hle
  omega

/-- The entries beside a block are not met in a walk over it. -/
theorem notMem_walkedOf (hb : d.Bears parent h ts rest) : ∀ e ∈ rest, e.1 ∉ walkedOf ts := by
  intro e he
  rw [mem_walkedOf, not_or]
  have hnodup := (nodup_cons.mp hb.exact.nodup).2
  rw [map_append] at hnodup
  constructor
  · intro hmem
    exact (disjoint_of_nodup_append hnodup) hmem (mem_map_of_mem he)
  · intro hmem
    have hnone := (hb.spent e.1 hmem).2
    rw [hb.exact.holds e (mem_cons_of_mem _ (mem_append_right _ he))] at hnone
    cases hnone

section

variable (hb : d.Bears parent h (left ++ .block id hd cs :: right) rest)
include hb

/-- Two twigs side by side refer to different blocks. -/
theorem notMem_idsOf : id ∉ idsOf left ∧ id ∉ idsOf right := by
  have hself := hb.enter.exact.notMem_of_cons
  have hlive : d.get? id ≠ none := by
    rw [hb.enter.get?_parent]
    exact Option.some_ne_none _
  have hcase (us : List Twig) (hentries : entriesOf us ⊆ entriesOf left ++ entriesOf right)
      (hlost : lostOf us ⊆ lostOf (left ++ .block id hd cs :: right)) : id ∉ idsOf us := by
    intro hid
    rcases (mem_walkedOf us).mp (idsOf_subset_walkedOf us hid) with hmem | hmem
    · refine hself ?_
      obtain ⟨e, he, rfl⟩ := mem_map.mp hmem
      have heither := mem_append.mp (hentries he)
      exact mem_map_of_mem (by simp only [mem_append, mem_cons]; tauto)
    · exact hlive (hb.spent id (hlost hmem)).2
  refine ⟨hcase left (subset_append_left _ _) ?_, hcase right (subset_append_right _ _) ?_⟩
  · rw [lostOf_append]
    exact subset_append_left _ _
  · rw [lostOf_append, lostOf]
    exact fun x hx => mem_append_right _ (mem_append_right _ hx)

/-- A block is taken out of the children of another. -/
theorem filter_children :
    ((left ++ .block id hd cs :: right).map child).filter (· != .block id) = (left ++ right).map child := by
  have hkeep (us : List Twig) (hus : id ∉ idsOf us) : (us.map child).filter (· != .block id) = us.map child := by
    rw [filter_eq_self]
    intro c hc
    rw [bne_iff_ne]
    rintro rfl
    exact hus (mem_filterMap.mpr ⟨_, hc, rfl⟩)
  obtain ⟨hleft, hright⟩ := hb.notMem_idsOf
  rw [map_append, map_cons, child, filter_append, hkeep left hleft,
    filter_cons_of_neg (by simp), hkeep right hright, map_append]

theorem detach :
    (d.detach parent id).Exact ((id, hd.block (cs.map child)) ::
      (entriesOf cs ++ ((parent, h.block ((left ++ right).map child)) :: (entriesOf left ++ entriesOf right ++ rest)))) := by
  have hexact := hb.exact.modify fun p => { p with children := p.children.filter (· != .block id) }
  have hblock : ({ h.block ((left ++ .block id hd cs :: right).map child) with
      children := (h.block ((left ++ .block id hd cs :: right).map child)).children.filter (· != .block id) } : Block)
        = h.block ((left ++ right).map child) := by
    rw [Head.children_block, hb.filter_children]
    rfl
  rw [hblock] at hexact
  exact hexact.perm (entries_perm _ _ _ _ _ _ _ _)

/-- A walk from a block in a table without it among the children of the one around it. -/
theorem subtree_detach : (d.detach parent id).subtree id = id :: walkedOf cs := by
  have hexact := hb.detach
  have hlost : ∀ x ∈ lostOf [Twig.block id hd cs], (d.detach parent id).get? x = none := by
    intro x hx
    refine (leads_modify d parent _).get?_spent x (hb.spent x ?_)
    simp only [lostOf, lost, append_nil] at hx
    simp [lostOf, lost, hx]
  have hlength : (entriesOf [Twig.block id hd cs]).length < (d.detach parent id).maxDepth := by
    have hle := hb.enter.length_lt
    simp only [entriesOf, entries, append_nil, length_cons, maxDepth, Document.detach, size_blocks_modify]
    omega
  have hwalk := walkFrom_idsOf _ _ (hexact.holds.of_subset ?_) hlost hlength
  · simpa [walkedOf, walked, subtree] using hwalk
  · intro e he
    simp only [entriesOf, entries, append_nil, mem_cons] at he
    simp only [mem_cons, mem_append]
    tauto

/-- **A removed block** takes all that is in it along, and leaves what is beside it. -/
theorem remove : (d.remove parent id).Bears parent h (left ++ right) rest := by
  have hexact := hb.detach
  have hinner := hb.enter
  constructor
  · unfold Document.remove
    rw [entriesOf_append]
    rw [← cons_append] at hexact
    refine hexact.foldl_vacate ?_ ?_
    · rw [hb.subtree_detach, forall_mem_cons]
      refine ⟨mem_cons_self, fun e he => mem_cons_of_mem _ ?_⟩
      exact (mem_walkedOf cs).mpr (.inl (mem_map_of_mem he))
    · rw [hb.subtree_detach]
      intro e he
      rw [mem_cons, not_or]
      have hid := hexact.notMem_of_cons
      constructor
      · rintro rfl
        exact hid (mem_map_of_mem (mem_append_right _ he))
      · rcases mem_cons.mp he with rfl | he
        · exact hinner.notMem_walkedOf (parent, h.block ((left ++ .block id hd cs :: right).map child)) mem_cons_self
        · exact hinner.notMem_walkedOf _ (mem_cons_of_mem _ he)
  · intro x hx
    refine (hb.spent x ?_).leads (leads_remove d parent id)
    simp only [lostOf_append, lostOf, mem_append] at hx ⊢
    tauto

/-- The blocks that go with a removed block are spent. -/
theorem spent_of_remove {x : BlockId} (hx : x ∈ id :: walkedOf cs) : (d.remove parent id).Spent x := by
  have hsize : x.index < d.blocks.size := by
    have hinner := hb.enter
    rcases mem_cons.mp hx with rfl | hx
    · exact index_lt_of_get? hinner.get?_parent
    · rcases (mem_walkedOf cs).mp hx with hmem | hmem
      · obtain ⟨e, he, rfl⟩ := mem_map.mp hmem
        exact index_lt_of_get? (hinner.exact.holds e (mem_cons_of_mem _ (mem_append_left _ he)))
      · exact (hinner.spent x hmem).1
  refine ⟨Nat.lt_of_lt_of_le hsize (leads_remove d parent id).size_le, ?_⟩
  rw [Document.remove, hb.subtree_detach, get?_foldl_vacate, if_pos hx]

end

theorem holds_entriesOf (hb : d.Bears parent h ts rest) : d.Holds (entriesOf ts) :=
  hb.exact.holds.of_subset fun _ he => mem_cons_of_mem _ (mem_append_left _ he)

theorem walk_eq (hb : d.Bears root h ts rest) : d.walk = root :: walkedOf ts := by
  rw [walk, subtree, maxDepth, walkFrom, hb.childBlocks_parent,
    walkFrom_idsOf _ _ hb.holds_entriesOf (fun id hid => (hb.spent id hid).2) hb.length_lt]

theorem tree_eq (hb : d.Bears root h ts rest) : d.tree = nodesOf ts := by
  rw [Document.tree, maxDepth, Document.nodes, hb.get?_parent]
  exact filterMap_childNode _ _ hb.holds_entriesOf (fun id hid => (hb.spent id hid).2) (Nat.le_of_lt hb.length_lt)

end Bears

/-! ## Whole documents -/

/-- The document is nothing but its root with the given twigs. -/
def Plants (d : Document) (ts : List Twig) : Prop := d.Bears root Head.root ts []

theorem plants_empty : empty.Plants [] := by
  refine ⟨⟨nodup_singleton _, ?_⟩, fun _ hid => absurd hid not_mem_nil⟩
  rintro ⟨index⟩ b
  cases index with
  | zero => simp [get?, empty, entriesOf, root, Head.root, Head.block, eq_comm]
  | succ index => simp [get?, empty, entriesOf, root]

namespace Plants

variable {d : Document} {ts : List Twig}

section

variable (h : d.Plants ts)
include h

theorem exact : d.Exact ((root, Head.root.block (ts.map child)) :: entriesOf ts) := by
  have hexact := Bears.exact h
  rwa [append_nil] at hexact

theorem length_lt : (entriesOf ts).length < d.maxDepth := Nat.lt_succ_of_lt (Bears.length_lt h)

theorem walk_eq : d.walk = root :: walkedOf ts := Bears.walk_eq h

theorem tree_eq : d.tree = nodesOf ts := Bears.tree_eq h

/-- The blocks that are there are the root and those of the twigs. -/
theorem isLive_iff {id : BlockId} : d.isLive id ↔ id = root ∨ id ∈ (entriesOf ts).map Prod.fst := by
  rw [h.exact.isLive_iff, map_cons, mem_cons]

/-- Every block that is there is met in a walk. -/
theorem mem_walk_of_isLive {id : BlockId} (hlive : d.isLive id) : id ∈ d.walk := by
  rw [h.walk_eq]
  rcases h.isLive_iff.mp hlive with rfl | hmem
  · exact mem_cons_self
  · exact mem_cons_of_mem _ ((mem_walkedOf ts).mpr (.inl hmem))

end

end Plants

end Document

end Stylesheet
