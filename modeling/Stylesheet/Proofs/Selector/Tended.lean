import Stylesheet.Proofs.Document.Arena
import Stylesheet.Proofs.Selector.Discard
import Stylesheet.Proofs.Selector.MergeNames
import Stylesheet.Proofs.Selector.Separate

/-!
# Documents that are tended

`Document.Tended` says that a document comes from the empty one by what may be done to documents: blocks are put into
others and removed again, comments and at-rules without a body are added, blocks of one name are put together and
malformed selectors are discarded. Each of these leaves twigs of which none is lost (`Grown`), so a tended document is
always a tree, whatever was done to it and in which order (`isTree_of_tended`).
-/

namespace Stylesheet

open Twig Selector List

namespace Document

/-- The document comes from the empty one by adding and removing, merging and discarding. -/
inductive Tended : Document → Prop
  | empty : Tended .empty
  | addBlock {d : Document} {parent : BlockId} {b : Block} (h : Tended d) (hparent : d.isLive parent)
      (hb : b.childBlocks = []) : Tended (d.addBlock parent b)
  | insertBlockAt {d : Document} {parent : BlockId} (i : Nat) {b : Block} (h : Tended d) (hparent : d.isLive parent)
      (hb : b.childBlocks = []) : Tended (d.insertBlockAt parent i b)
  | pushChild {d : Document} (parent : BlockId) {c : Child} (h : Tended d) (hc : c.blockId? = none) :
      Tended (d.pushChild parent c)
  | remove {d : Document} {parent id : BlockId} (h : Tended d) (hid : id ∈ d.childBlocks parent) :
      Tended (d.remove parent id)
  | mergeNames {d : Document} (h : Tended d) : Tended (mergeNames d root).1
  | discardInvalid {d : Document} (h : Tended d) : Tended (discardInvalid d root).1

/-- The document is its root with twigs of which none is lost. -/
def Grown (d : Document) : Prop := ∃ ts, d.Plants ts ∧ lostOf ts = []

theorem grown_empty : Grown .empty := ⟨[], plants_empty, rfl⟩

/-- Children that are no blocks are twigs without entries. -/
theorem exists_map_child {cs : List Child} (h : cs.filterMap Child.blockId? = []) :
    ∃ us : List Twig, us.map child = cs ∧ entriesOf us = [] ∧ lostOf us = [] := by
  suffices hids : ∃ us : List Twig, us.map child = cs by
    obtain ⟨us, rfl⟩ := hids
    exact ⟨us, rfl, entriesOf_lostOf_of_idsOf h⟩
  induction cs with
  | nil => exact ⟨[], rfl⟩
  | cons c cs ih =>
    cases c with
    | block id => cases h
    | lineAt rule =>
      obtain ⟨us, hus⟩ := ih h
      exact ⟨.lineAt rule :: us, by rw [map_cons, hus]; rfl⟩
    | comment text =>
      obtain ⟨us, hus⟩ := ih h
      exact ⟨.comment text :: us, by rw [map_cons, hus]; rfl⟩

namespace Grown

variable {d : Document} {parent id : BlockId} {b : Block}

/-- A block without blocks in it is put between the children of another. -/
theorem insertBlockAt (h : d.Grown) (i : Nat) (hparent : d.isLive parent) (hb : b.childBlocks = []) :
    (d.insertBlockAt parent i b).Grown := by
  obtain ⟨ts, hp, hlost⟩ := h
  obtain ⟨h, us, rest, hbears, hus, hleave⟩ := hp.exists_bears hparent
  obtain ⟨cs, hcs, hentries, hnone⟩ := exists_map_child hb
  have hblock : b = Head.block ⟨b.name, b.kind, b.declarations⟩ (cs.map child) := by rw [hcs]; rfl
  -- a place behind the last child is the end
  have hplace : d.insertBlockAt parent i b = d.insertBlockAt parent (us.take i).length b := by
    refine modify_congr (get?_alloc_of_get? hbears.get?_parent b) ?_
    have hlength : us.length = (us.map child).length := (length_map child).symm
    simp only [Head.children_block, length_take, hlength]
    rw [← take_eq_take_min, ← drop_eq_drop_min]
  have hsplit : d.Bears parent h (us.take i ++ us.drop i) rest := by rwa [take_append_drop]
  have hinsert : d.Becomes (d.insertBlockAt parent (us.take i).length b) parent h
      (us.take i ++ .block d.fresh ⟨b.name, b.kind, b.declarations⟩ cs :: us.drop i) rest := by
    rw [hblock]
    exact hsplit.insertBlockAt hentries (by simp [hnone])
  rw [← hplace] at hinsert
  obtain ⟨vs, hvs, hnothing⟩ := hleave _ _ hinsert.leads hinsert.bears
  refine ⟨vs, hvs, hnothing hlost ?_⟩
  have hall := hus hlost
  rw [← take_append_drop i us, lostOf_append, append_eq_nil_iff] at hall
  simp [lostOf, lost, hall, hnone]

theorem addBlock (h : d.Grown) (hparent : d.isLive parent) (hb : b.childBlocks = []) : (d.addBlock parent b).Grown := by
  obtain ⟨p, hp⟩ := Option.isSome_iff_exists.mp hparent
  rw [addBlock_eq_insertBlockAt hp]
  exact h.insertBlockAt _ hparent hb

theorem pushChild (h : d.Grown) (parent : BlockId) {c : Child} (hc : c.blockId? = none) :
    (d.pushChild parent c).Grown := by
  by_cases hparent : d.isLive parent
  · obtain ⟨ts, hp, hlost⟩ := h
    obtain ⟨h, us, rest, hbears, hus, hleave⟩ := hp.exists_bears hparent
    obtain ⟨cs, hcs, hentries, hnone⟩ := exists_map_child (show [c].filterMap Child.blockId? = [] by simpa using hc)
    have hblock : (h.block (us.map child)).pushChild c = h.block ((us ++ cs).map child) := by
      rw [map_append, hcs]
      rfl
    have hpushed : d.Becomes (d.pushChild parent c) parent h (us ++ cs) rest := by
      refine hbears.modify hblock (by rw [entriesOf_append, hentries, append_nil]) fun x hx => hbears.spent x ?_
      rwa [lostOf_append, hnone, append_nil] at hx
    obtain ⟨vs, hvs, hnothing⟩ := hleave _ _ hpushed.leads hpushed.bears
    exact ⟨vs, hvs, hnothing hlost (by rw [lostOf_append, hus hlost, hnone]; rfl)⟩
  · have hsame : d.pushChild parent c = d := by
      rw [isLive, Option.not_isSome_iff_eq_none] at hparent
      simp only [Document.pushChild, modify, hparent]
    rwa [hsame]

theorem remove (h : d.Grown) (hid : id ∈ d.childBlocks parent) : (d.remove parent id).Grown := by
  obtain ⟨ts, hp, hlost⟩ := h
  obtain ⟨h, left, hd, cs, right, rest, hb, hbeside, hleave⟩ := hp.exists_bears_child hlost hid
  exact hleave _ _ (leads_remove d parent id) hb.remove hbeside

theorem mergeNames (h : d.Grown) : (mergeNames d root).1.Grown := by
  obtain ⟨ts, hp, hlost⟩ := h
  obtain ⟨us, -, hbecomes, hmerges, -⟩ := mergeNamesFrom_reworks _ hp (soundOf_of_lostOf ts hlost) hp.length_lt
  exact ⟨us, hbecomes.bears, (retains_of_mergesNames hmerges).lost_iff.mpr hlost⟩

theorem discardInvalid (h : d.Grown) : (discardInvalid d root).1.Grown := by
  obtain ⟨ts, hp, hlost⟩ := h
  obtain ⟨us, -, hbecomes, -, hus⟩ := discardFrom_becomes _ hp (soundOf_of_lostOf ts hlost) hp.length_lt
  exact ⟨us, hbecomes.bears, hus hlost⟩

end Grown

theorem Tended.grown {d : Document} (h : Tended d) : d.Grown := by
  induction h with
  | empty => exact grown_empty
  | addBlock _ hparent hb ih => exact ih.addBlock hparent hb
  | insertBlockAt i _ hparent hb ih => exact ih.insertBlockAt i hparent hb
  | pushChild parent _ hc ih => exact ih.pushChild parent hc
  | remove _ hid ih => exact ih.remove hid
  | mergeNames _ ih => exact ih.mergeNames
  | discardInvalid _ ih => exact ih.discardInvalid

/-- What is below a block is below its home afterwards. -/
theorem FoldsBy.below {d d' : Document} {home : BlockId → BlockId} (h : FoldsBy home d d') {outer id : BlockId}
    (hid : d.Below outer id) : d'.Below (home outer) (home id) := by
  induction hid with
  | refl => exact .refl
  | tail _ hx ih =>
    obtain ⟨b, hget, hmem⟩ := mem_childBlocks.mp hx
    obtain ⟨b', hget', -, hchildren⟩ := h.keeps _ b hget
    exact ih.tail (mem_childBlocks.mpr ⟨b', hget', hchildren _ hmem⟩)

/-- **A tended document is a tree.** A block that is removed from it takes all blocks below it along and no others.
Where blocks of one name are put together, every block has a home of its name and kind, with all that stood in the block
or below it. -/
theorem isTree_of_tended {d : Document} (h : Tended d) :
    d.IsTree ∧
      (∀ parent id x, id ∈ d.childBlocks parent →
        (d.Below id x → (d.remove parent id).get? x = none) ∧
          (¬ d.Below id x → (d.remove parent id).get? x = (d.detach parent id).get? x)) ∧
      ∃ home, FoldsBy home d (mergeNames d root).1 ∧
        ∀ outer id, d.Below outer id → (mergeNames d root).1.Below (home outer) (home id) := by
  obtain ⟨ts, hp, hlost⟩ := h.grown
  obtain ⟨us, -, -, -, hfolds⟩ := mergeNamesFrom_reworks _ hp (soundOf_of_lostOf ts hlost) hp.length_lt
  obtain ⟨-, home, hhome⟩ := hfolds fun id p q _ hidp hidq => hp.oneParent hlost hidp hidq
  exact ⟨hp.isTree hlost, fun parent id x hid => hp.get?_remove hlost hid x, home, hhome, fun _ _ => hhome.below⟩

/-- A medium twice, with a selector in each, and a page in the second selector. -/
def mediaTwice : Document :=
  let d := ((empty.addBlock root { name := "@media tv", kind := .atBlock }).addBlock ⟨1⟩
    { name := "a", kind := .selector ["a"] }).addBlock root { name := "@media tv", kind := .atBlock }
  ((d.insertBlockAt ⟨3⟩ 0 { name := "a", kind := .selector ["a"] }).pushChild ⟨3⟩ (.comment "")).addBlock ⟨4⟩
    { name := "@page", kind := .atBlock }

theorem tended_mediaTwice : Tended mediaTwice :=
  .addBlock (.pushChild _ (.insertBlockAt _ (.addBlock (.addBlock (.addBlock .empty rfl rfl) rfl rfl) rfl rfl) rfl rfl) rfl)
    rfl rfl

/-- The page goes with the second medium, and is in the first one where the two are put together. -/
theorem isTree_mediaTwice :
    Tended mediaTwice ∧ mediaTwice.IsTree ∧ (mediaTwice.remove root ⟨3⟩).get? ⟨5⟩ = none ∧
      ∃ home, FoldsBy home mediaTwice (mergeNames mediaTwice root).1 ∧
        (mergeNames mediaTwice root).1.Below (home ⟨3⟩) (home ⟨5⟩) := by
  have hbelow : mediaTwice.Below ⟨3⟩ ⟨5⟩ := .head (b := ⟨4⟩) (by decide +kernel) (.single (by decide +kernel))
  obtain ⟨htree, hremove, home, hhome, hmoved⟩ := isTree_of_tended tended_mediaTwice
  exact ⟨tended_mediaTwice, htree, (hremove root ⟨3⟩ ⟨5⟩ (by decide +kernel)).1 hbelow, home, hhome, hmoved _ _ hbelow⟩

end Document

end Stylesheet
