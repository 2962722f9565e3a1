import Stylesheet.Proofs.Document.Reach
import Mathlib.Data.List.Pairwise
import Mathlib.Logic.Relation

/-!
# Tables that are trees

`Document.IsTree` says without any reference to twigs that a table is a tree: whatever is referred to is there, every
block but the root is referred to once, and a walk meets each block once, in front of the blocks it holds. A document that
is its root with given twigs, of which none is lost, is a tree (`Plants.isTree`).

In a tree, a block is removed together with the blocks below it and no others (`Plants.get?_remove`).
-/

namespace Stylesheet

open List

namespace Twig

/-- Everything that is referred to, in the twigs or in the entries of their blocks, is met in a walk as often. -/
theorem perm_walkedOf (ts : List Twig) : (idsOf ts ++ (entriesOf ts).flatMap (·.2.childBlocks)).Perm (walkedOf ts) := by
  induction ts using listInduction with
  | nil => exact .refl _
  | block id h cs ts hcs hts =>
    rw [entriesOf, entries, flatMap_append, flatMap_cons, walkedOf, walked]
    refine List.Perm.trans (perm_iff_count.mpr fun x => ?_) ((hcs.append hts).cons id)
    have hchildren : (h.block (cs.map child)).childBlocks = idsOf cs := rfl
    simp only [idsOf_cons_block, hchildren, cons_append, count_cons, count_append]
    ring
  | gone id ts hts => exact hts.cons id
  | lineAt _ ts hts => exact hts
  | comment _ ts hts => exact hts

end Twig

namespace Document

open Twig

/-! ## The blocks of a table with their identifiers -/

/-- The blocks of the table with their identifiers, in the order of the table. -/
def liveEntries (d : Document) : List (BlockId × Block) :=
  d.blocks.toList.zipIdx.filterMap fun e => e.1.map fun b => (⟨e.2⟩, b)

theorem map_snd_liveEntries (d : Document) : d.liveEntries.map Prod.snd = d.liveBlocks := by
  rw [liveEntries, map_filterMap, liveBlocks]
  have hfst : (fun e : Option Block × Nat => (e.1.map fun b => ((⟨e.2⟩ : BlockId), b)).map Prod.snd) = id ∘ Prod.fst := by
    funext e
    cases h : e.1 <;> simp [h]
  rw [hfst, ← filterMap_map, zipIdx_map_fst]

theorem mem_liveEntries {d : Document} {id : BlockId} {b : Block} : (id, b) ∈ d.liveEntries ↔ d.get? id = some b := by
  rw [liveEntries, mem_filterMap, get?, Option.join_eq_some_iff, ← Array.getElem?_toList]
  constructor
  · rintro ⟨⟨x, i⟩, hmem, hx⟩
    obtain ⟨c, rfl, hc⟩ := Option.map_eq_some_iff.mp hx
    cases hc
    exact mk_mem_zipIdx_iff_getElem?.mp hmem
  · exact fun h => ⟨(some b, id.index), mk_mem_zipIdx_iff_getElem?.mpr h, rfl⟩

theorem nodup_liveEntries (d : Document) : (d.liveEntries.map Prod.fst).Nodup := by
  have hindex : (d.liveEntries.map fun e => e.1.index).Sublist (d.blocks.toList.zipIdx.map Prod.snd) := by
    rw [liveEntries, map_filterMap]
    generalize d.blocks.toList.zipIdx = l
    induction l with
    | nil => exact .refl _
    | cons e l ih =>
      rw [map_cons]
      cases h : e.1 with
      | none => rw [filterMap_cons_none (by rw [h]; rfl)]; exact ih.cons _
      | some b => rw [filterMap_cons_some (b := e.2) (by rw [h]; rfl)]; exact ih.cons_cons _
  have hrange : (d.blocks.toList.zipIdx.map Prod.snd).Nodup := by
    rw [zipIdx_map_snd]
    exact nodup_range'
  have hnodup := hrange.sublist hindex
  have hcomp : (d.liveEntries.map fun e => e.1.index) = (d.liveEntries.map Prod.fst).map BlockId.index := by
    rw [map_map]
    rfl
  rw [hcomp] at hnodup
  exact hnodup.of_map

/-- The table has the given entries in some order. -/
theorem Exact.perm_liveEntries {d : Document} {es : List (BlockId × Block)} (h : d.Exact es) : d.liveEntries.Perm es :=
  (perm_ext_iff_of_nodup (nodup_liveEntries d).of_map h.nodup.of_map).mpr fun e =>
    mem_liveEntries.trans (h.get?_iff e.1 e.2)

/-! ## Trees -/

/-- A block is the other one, or below it. -/
def Below (d : Document) : BlockId → BlockId → Prop := Relation.ReflTransGen fun outer id => id ∈ d.childBlocks outer

/-- The table is a tree. -/
structure IsTree (d : Document) : Prop where
  isLive_root : d.isLive root
  isLive_child : ∀ b ∈ d.liveBlocks, ∀ id ∈ b.childBlocks, d.isLive id
  root_notMem : ∀ b ∈ d.liveBlocks, root ∉ b.childBlocks
  once : ∀ id, d.isLive id → id ≠ root → (d.liveBlocks.flatMap Block.childBlocks).count id = 1
  nodup_walk : d.walk.Nodup
  mem_walk_iff : ∀ id, id ∈ d.walk ↔ d.isLive id
  subtree_eq : ∀ id, d.isLive id → d.subtree id = id :: (d.childBlocks id).flatMap d.subtree
  length_walk : d.walk.length = d.blockCount

variable {d : Document} {parent id x : BlockId} {h : Head} {ts : List Twig} {rest : List (BlockId × Block)}

/-- A block that holds another one is there. -/
theorem isLive_of_mem_childBlocks (hid : id ∈ d.childBlocks parent) : d.isLive parent := by
  rw [isLive]
  cases hget : d.get? parent with
  | none => simp [childBlocks, hget] at hid
  | some b => rfl

/-- A block of a tree stands where the entries of its twigs are. -/
theorem Bears.exists_bears (hb : d.Bears parent h ts rest) (hid : id ∈ (entriesOf ts).map Prod.fst) :
    ∃ hd cs rest', d.Bears id hd cs rest' ∧ (lostOf ts = [] → lostOf cs = []) ∧
      ∀ d' cs', d.Leads d' → d'.Bears id hd cs' rest' →
        ∃ us, d'.Bears parent h us rest ∧ (lostOf ts = [] → lostOf cs' = [] → lostOf us = []) := by
  -- the block is one of the twigs, or in one of them
  induction hlength : (entriesOf ts).length using Nat.strongRecOn generalizing parent h ts rest with
  | ind n ih =>
    obtain ⟨⟨id, b⟩, hentry, rfl⟩ := mem_map.mp hid
    obtain ⟨t, ht, he⟩ := mem_entriesOf.mp hentry
    cases t with
    | lineAt rule => cases he
    | comment text => cases he
    | gone y => cases he
    | block y hd cs =>
      have hshort := length_entriesOf_lt ht
      obtain ⟨left, right, rfl⟩ := append_of_mem ht
      have hlost {vs : List Twig} (hts : lostOf (left ++ .block y hd cs :: right) = []) (hvs : lostOf vs = []) :
          lostOf (left ++ .block y hd vs :: right) = [] := by
        simp only [lostOf_append, lostOf, lost, append_eq_nil_iff] at hts ⊢
        exact ⟨hts.1, hvs, hts.2.2⟩
      have hinner (hts : lostOf (left ++ .block y hd cs :: right) = []) : lostOf cs = [] := by
        simp only [lostOf_append, lostOf, lost, append_eq_nil_iff] at hts
        exact hts.2.1
      rw [entries, mem_cons] at he
      rcases he with he | he
      · cases he
        refine ⟨hd, cs, _, hb.enter, hinner, fun d' cs' hleads hb' => ?_⟩
        exact ⟨_, hb.leave hleads hb', hlost⟩
      · obtain ⟨hd', cs', rest', hb', hlost', hleave⟩ :=
          ih _ (hlength ▸ hshort) hb.enter (mem_map_of_mem he) rfl
        refine ⟨hd', cs', rest', hb', fun hts => hlost' (hinner hts), fun d' cs'' hleads hb'' => ?_⟩
        obtain ⟨us, hus, hlostus⟩ := hleave d' cs'' hleads hb''
        exact ⟨_, hb.leave hleads hus, fun hts hcs => hlost hts (hlostus (hinner hts) hcs)⟩

namespace Plants

section

variable (hp : d.Plants ts)
include hp

/-- Every block that is there can be worked at. -/
theorem exists_bears (hlive : d.isLive id) :
    ∃ hd cs rest', d.Bears id hd cs rest' ∧ (lostOf ts = [] → lostOf cs = []) ∧
      ∀ d' cs', d.Leads d' → d'.Bears id hd cs' rest' →
        ∃ us, d'.Plants us ∧ (lostOf ts = [] → lostOf cs' = [] → lostOf us = []) := by
  rcases hp.isLive_iff.mp hlive with rfl | hmem
  · exact ⟨_, ts, _, hp, fun hts => hts, fun d' cs' _ hb' => ⟨cs', hb', fun _ hcs => hcs⟩⟩
  · exact Bears.exists_bears hp hmem

/-- The blocks below one that is there, with nothing said about how deep they lie. -/
theorem subtree_eq (hlive : d.isLive id) : d.subtree id = id :: (d.childBlocks id).flatMap d.subtree := by
  obtain ⟨hd, cs, rest', hb, -⟩ := hp.exists_bears hlive
  have hlength := hb.length_lt
  have hwalk (fuel : Nat) (hfuel : d.blocks.size ≤ fuel) : (d.childBlocks id).flatMap (d.walkFrom fuel) = walkedOf cs := by
    rw [hb.childBlocks_parent]
    exact walkFrom_idsOf _ _ hb.holds_entriesOf (fun x hx => (hb.spent x hx).2) (by omega)
  have hdeeper : (d.childBlocks id).flatMap d.subtree = walkedOf cs := hwalk d.maxDepth (Nat.le_succ _)
  rw [hdeeper, subtree, maxDepth, walkFrom, hwalk _ (Nat.le_refl _)]

/-- What is referred to, taken over all blocks, is what a walk meets below the root. -/
theorem perm_childBlocks : (d.liveBlocks.flatMap Block.childBlocks).Perm (walkedOf ts) := by
  have hflat : d.liveBlocks.flatMap Block.childBlocks = d.liveEntries.flatMap (·.2.childBlocks) := by
    rw [← map_snd_liveEntries, flatMap_map]
  rw [hflat]
  refine (hp.exact.perm_liveEntries.flatMap_right _).trans ?_
  rw [flatMap_cons]
  exact perm_walkedOf ts

/-- **Twigs of which none is lost are a tree.** -/
theorem isTree (hlost : lostOf ts = []) : d.IsTree := by
  have hwellFormed := hp.wellFormed_iff.mpr hlost
  have hwalk := hp.walk_eq
  have hperm := hp.perm_childBlocks
  have hnodup : (root :: walkedOf ts).Nodup := hwalk ▸ hwellFormed.1
  have hmem {b : Block} (hb : b ∈ d.liveBlocks) {id : BlockId} (hid : id ∈ b.childBlocks) : id ∈ walkedOf ts :=
    hperm.subset (mem_flatMap.mpr ⟨b, hb, hid⟩)
  have hwalked {id : BlockId} (hid : id ∈ walkedOf ts) : d.isLive id :=
    hwellFormed.2 id (hwalk ▸ mem_cons_of_mem _ hid)
  refine
    { isLive_root := hp.isLive_iff.mpr (.inl rfl)
      isLive_child := fun b hb id hid => hwalked (hmem hb hid)
      root_notMem := fun b hb hid => (nodup_cons.mp hnodup).1 (hmem hb hid)
      once := fun id hlive hne => ?_
      nodup_walk := hwellFormed.1
      mem_walk_iff := fun id => ⟨hwellFormed.2 id, hp.mem_walk_of_isLive⟩
      subtree_eq := fun id hlive => hp.subtree_eq hlive
      length_walk := ?_ }
  · rw [hperm.count_eq]
    refine count_eq_one_of_mem (nodup_cons.mp hnodup).2 ?_
    exact (mem_cons.mp (hwalk ▸ hp.mem_walk_of_isLive hlive)).resolve_left hne
  · have hcount := hp.exact.perm_liveEntries.length_eq
    rw [blockCount, ← map_snd_liveEntries, length_map, hcount, hwalk, walkedOf_eq ts hlost, length_cons,
      length_map, length_cons]

theorem oneParent (hlost : lostOf ts = []) {p q : BlockId} (hidp : id ∈ d.childBlocks p)
    (hidq : id ∈ d.childBlocks q) : p = q := by
  have hnodup : (walkedOf ts).Nodup := by
    have hall := (hp.wellFormed_iff.mpr hlost).1
    rw [hp.walk_eq] at hall
    exact (nodup_cons.mp hall).2
  have hflat : (d.liveEntries.flatMap (·.2.childBlocks)).Nodup := by
    have hperm := hp.perm_childBlocks
    rw [← map_snd_liveEntries, flatMap_map] at hperm
    exact hperm.nodup_iff.mpr hnodup
  have hentry {p : BlockId} (hid : id ∈ d.childBlocks p) : ∃ b, (p, b) ∈ d.liveEntries ∧ id ∈ b.childBlocks := by
    rw [childBlocks] at hid
    cases hget : d.get? p with
    | none => simp [hget] at hid
    | some b => exact ⟨b, mem_liveEntries.mpr hget, by simpa [hget] using hid⟩
  obtain ⟨b, hb, hidb⟩ := hentry hidp
  obtain ⟨c, hc, hidc⟩ := hentry hidq
  by_contra hne
  have hsymm : Std.Symm (Function.onFun List.Disjoint fun e : BlockId × Block => e.2.childBlocks) :=
    ⟨fun _ _ h _ ha hb => h hb ha⟩
  have hapart := (nodup_flatMap.mp hflat).2.forall hb hc fun heq => hne (congrArg Prod.fst heq)
  exact hapart hidb hidc

/-! ## What is below a block -/

theorem mem_subtree_iff : x ∈ d.subtree id ↔ d.Below id x := by
  constructor
  · have hbelow (fuel : Nat) (id : BlockId) (hx : x ∈ d.walkFrom fuel id) : d.Below id x := by
      induction fuel generalizing id with
      | zero => cases hx
      | succ fuel ih =>
        rcases mem_cons.mp hx with rfl | hx
        · exact .refl
        · obtain ⟨c, hc, hx⟩ := mem_flatMap.mp hx
          exact .head hc (ih c hx)
    exact hbelow d.maxDepth id
  · intro hbelow
    induction hbelow using Relation.ReflTransGen.head_induction_on with
    | refl => exact mem_cons_self
    | @head outer c hc _ ih =>
      rw [hp.subtree_eq (isLive_of_mem_childBlocks hc)]
      exact mem_cons_of_mem _ (mem_flatMap.mpr ⟨c, hc, ih⟩)

/-- The block around a child can be worked at, with what stands beside the child. -/
theorem exists_bears_child (hlost : lostOf ts = []) (hid : id ∈ d.childBlocks parent) :
    ∃ h left hd cs right rest', d.Bears parent h (left ++ .block id hd cs :: right) rest' ∧
      lostOf (left ++ right) = [] ∧ ∀ d' cs', d.Leads d' → d'.Bears parent h cs' rest' → lostOf cs' = [] →
        ∃ us, d'.Plants us ∧ lostOf us = [] := by
  obtain ⟨h, us, rest', hb, hus, hleave⟩ := hp.exists_bears (isLive_of_mem_childBlocks hid)
  rw [hb.childBlocks_parent] at hid
  rcases mem_idsOf hid with ⟨hd, cs, hmem⟩ | hgone
  · obtain ⟨left, right, rfl⟩ := append_of_mem hmem
    refine ⟨h, left, hd, cs, right, rest', hb, ?_, fun d' cs' hleads hb' hcs' => ?_⟩
    · have hbeside := hus hlost
      simp only [lostOf_append, lostOf, append_eq_nil_iff] at hbeside ⊢
      exact ⟨hbeside.1, hbeside.2.2⟩
    · obtain ⟨vs, hvs, hnone⟩ := hleave d' cs' hleads hb'
      exact ⟨vs, hvs, hnone hlost hcs'⟩
  · have hnone := lostOf_eq_nil_iff.mp (hus hlost) _ hgone
    simp [lost] at hnone

/-- **A block is removed with all that is below it.** The other blocks stay as they are, but for the one around it. -/
theorem get?_remove (hlost : lostOf ts = []) (hid : id ∈ d.childBlocks parent) (x : BlockId) :
    (d.Below id x → (d.remove parent id).get? x = none) ∧
      (¬ d.Below id x → (d.remove parent id).get? x = (d.detach parent id).get? x) := by
  obtain ⟨h, left, hd, cs, right, rest', hb, -⟩ := hp.exists_bears_child hlost hid
  have hinner := hb.enter
  have hsame : (d.detach parent id).subtree id = d.subtree id := by
    rw [hb.subtree_detach, subtree, maxDepth, walkFrom, hinner.childBlocks_parent,
      walkFrom_idsOf _ _ hinner.holds_entriesOf (fun y hy => (hinner.spent y hy).2) hinner.length_lt]
  rw [remove, get?_foldl_vacate, hsame, ← hp.mem_subtree_iff]
  exact ⟨fun hmem => if_pos hmem, fun hmem => if_neg hmem⟩

end

end Plants

end Document

end Stylesheet
