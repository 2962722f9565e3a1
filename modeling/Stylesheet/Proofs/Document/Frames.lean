import Stylesheet.Proofs.Document.Change

/-!
# A tree with an open path

While a stylesheet is read, the blocks from the root down to the innermost open one are still growing. Such a
tree is given by its open blocks, innermost first: each is a `Frame`, with the nodes that stand in it in front of
the next open block and the nodes that stand behind it. Nothing stands behind the end of the innermost block.

`Builds d path frames` says that the table of a document holds such a tree, with the open blocks under the
identifiers of a path. Everything that is done to a document while it is read is a small change of the frames:

* `Builds.push` and `Builds.declare` put something at the end of the innermost block;
* `Builds.addBlock` opens a new block there, and `Builds.exists_reopen` goes on with one that stands in it already;
* `Builds.close` closes the innermost block, which leaves the table as it is.

Closing all of them gives the tree of the document (`Builds.tree_eq`), and the table holds nothing else
(`Builds.plants`).
-/

namespace Stylesheet

open List

/-- An open block: what has been put into it, in front of the open block inside it and behind that. -/
structure Frame where
  name : String
  kind : BlockKind
  declarations : Declarations := .empty
  before : List Node := []
  after : List Node := []

namespace Frame

/-- The root before anything is read. -/
def root : Frame := { name := "", kind := .atBlock }

/-- The block when it is closed. -/
def node (f : Frame) : Node := .block f.name f.kind f.declarations (f.before ++ f.after)

/-- Puts a node at the end of an innermost block. -/
def push (f : Frame) (n : Node) : Frame := { f with before := f.before ++ [n] }

/-- Reads a declaration into a block. -/
def declare (f : Frame) (property : String) (value : Value) : Frame :=
  { f with declarations := f.declarations.insert property value }

/-- The block around an innermost block once that is closed. -/
def close (f g : Frame) : Frame := { g with before := g.before ++ f.node :: g.after, after := [] }

/-- The outermost block once all blocks inside it are closed. -/
def closeAll (f : Frame) (fs : List Frame) : Frame := fs.foldl close f

/-- What the block has besides what stands in it. -/
def head (f : Frame) : Head := ⟨f.name, f.kind, f.declarations⟩

/-- The outermost of the open blocks is a root. -/
def Rooted : List Frame → Prop
  | [] => False
  | [f] => f.head = Head.root
  | _ :: g :: fs => Rooted (g :: fs)

theorem head_closeAll {f : Frame} {fs : List Frame} (h : Rooted (f :: fs)) : (f.closeAll fs).head = Head.root := by
  induction fs generalizing f with
  | nil => exact h
  | cons g fs ih => exact ih (by cases fs <;> exact h)

end Frame

/-! ## Frames with identifiers -/

/-- An open block with its identifier and those of the blocks in it. -/
structure Spot where
  id : BlockId
  head : Head
  before : List Twig
  after : List Twig

namespace Spot

open Twig

/-- The open block without identifiers. -/
def frame (p : Spot) : Frame :=
  { name := p.head.name, kind := p.head.kind, declarations := p.head.declarations
    before := nodesOf p.before, after := nodesOf p.after }

/-- The block around an innermost block once that is closed. -/
def close (p q : Spot) : Spot :=
  { q with before := q.before ++ .block p.id p.head (p.before ++ p.after) :: q.after, after := [] }

/-- The entries of a table for the open blocks around an open block. -/
def entries (inner : BlockId) : List Spot → List (BlockId × Block)
  | [] => []
  | p :: ps =>
    (p.id, p.head.block (p.before.map child ++ .block inner :: p.after.map child)) ::
      (entriesOf p.before ++ entriesOf p.after ++ entries p.id ps)

theorem frame_close (p q : Spot) : (p.close q).frame = p.frame.close q.frame := by
  simp [close, frame, Frame.close, nodesOf, nodes, Frame.node]

end Spot

namespace Document

open Twig

variable {d d' : Document} {id : BlockId} {path : List BlockId} {ps : List Spot} {p q : Spot} {hd : Head}
  {cs left right : List Twig} {frames fs : List Frame} {f : Frame}

/-- The table holds the open blocks with all that is in them and nothing else. No block that is referred to is gone. -/
structure Placed (d : Document) (path : List BlockId) (p : Spot) (ps : List Spot) : Prop where
  ids : (p :: ps).map Spot.id = path ++ [root]
  bears : d.Bears p.id p.head p.before (Spot.entries p.id ps)
  after : p.after = []
  whole : ∀ q ∈ p :: ps, lostOf q.before = [] ∧ lostOf q.after = []

/-- The table holds a tree whose open blocks are the given frames, under the identifiers of a path. The root,
which is not listed in the path, is the last frame. -/
def Builds (d : Document) (path : List BlockId) (frames : List Frame) : Prop :=
  ∃ p ps, d.Placed path p ps ∧ (p :: ps).map Spot.frame = frames

/-! ## Open blocks under a change of the table -/

namespace Placed

/-- The identifier of the innermost block. -/
theorem id_eq (h : d.Placed path p ps) : p.id = path.head?.getD root := by
  have hids := h.ids
  cases path with
  | nil => simpa using (cons.inj hids).1
  | cons id path => simpa using (cons.inj hids).1

theorem congr (h : d.Placed path p ps) (hblocks : d'.blocks = d.blocks) : d'.Placed path p ps := by
  have hget (id : BlockId) : d'.get? id = d.get? id := by rw [get?, hblocks, get?]
  refine ⟨h.ids, ⟨⟨h.bears.exact.nodup, fun id b => ?_⟩, by simp [(h.whole p mem_cons_self).1]⟩, h.after, h.whole⟩
  rw [hget]
  exact h.bears.exact.get?_iff id b

/-- A change of the innermost block. -/
theorem change (h : d.Placed path p ps) {cs : List Twig} (hb : d'.Bears p.id hd cs (Spot.entries p.id ps))
    (hlost : lostOf cs = []) : d'.Placed path { p with head := hd, before := cs } ps :=
  ⟨h.ids, hb, h.after, forall_mem_cons.mpr ⟨⟨hlost, by simp [h.after, lostOf]⟩, (forall_mem_cons.mp h.whole).2⟩⟩

/-- A change of the innermost block that adds no blocks. -/
theorem modify (h : d.Placed path p ps) {g : Block → Block}
    (hg : g (p.head.block (p.before.map child)) = hd.block (cs.map child)) (hentries : entriesOf cs = entriesOf p.before)
    (hlost : lostOf cs = []) : (d.modify p.id g).Placed path { p with head := hd, before := cs } ps :=
  h.change (h.bears.modify hg hentries (by simp [hlost])).bears hlost

/-- Going on with a block that stands in the innermost one. -/
theorem reopen (h : d.Placed path q ps) (hbefore : q.before = left ++ .block id hd cs :: right) :
    d.Placed (id :: path) ⟨id, hd, cs, []⟩ ({ q with before := left, after := right } :: ps) := by
  obtain ⟨hlost, hmore⟩ := forall_mem_cons.mp h.whole
  have hbears := h.bears
  rw [hbefore] at hbears hlost
  simp only [lostOf_append, lostOf, lost, append_eq_nil_iff] at hlost
  refine ⟨by simpa using h.ids, ?_, rfl, ?_⟩
  · simpa [Spot.entries, child] using hbears.enter
  · simp only [forall_mem_cons]
    exact ⟨⟨hlost.1.2.1, rfl⟩, ⟨hlost.1.1, hlost.1.2.2⟩, hmore⟩

/-- Opening a new block at the end of the innermost one. -/
theorem addBlock (h : d.Placed path p ps) (hd : Head) :
    (d.addBlock p.id (hd.block [])).Placed (d.fresh :: path) ⟨d.fresh, hd, [], []⟩ (p :: ps) := by
  obtain ⟨id, head, before, after⟩ := p
  obtain rfl : after = [] := h.after
  have hlost : lostOf before = [] := (h.whole _ mem_cons_self).1
  have hbears := h.bears
  have hplace := addBlock_eq_insertBlockAt hbears.get?_parent (hd.block [])
  rw [Head.children_block, length_map] at hplace
  rw [← append_nil before] at hbears
  have hnew := @Bears.insertBlockAt d id head hd before [] [] _ hbears rfl (by simp [lostOf])
  rw [map_nil, ← hplace] at hnew
  exact (h.change hnew.bears (by simp [lostOf, lost, hlost])).reopen rfl

/-- Closing the innermost block. -/
theorem close (h : d.Placed (id :: path) p (q :: ps)) : d.Placed path (p.close q) ps := by
  have hwhole := h.whole
  simp only [forall_mem_cons] at hwhole
  obtain ⟨⟨hp, -⟩, ⟨hbefore, hafter⟩, hmore⟩ := hwhole
  have hlost : lostOf (p.close q).before = [] := by simp [Spot.close, lostOf, lost, hp, hbefore, hafter, h.after]
  refine ⟨?_, ⟨?_, by simp [hlost]⟩, rfl, forall_mem_cons.mpr ⟨⟨hlost, rfl⟩, hmore⟩⟩
  · have hids := h.ids
    simp only [map_cons, cons_append, cons.injEq] at hids
    exact hids.2
  · have hexact := h.bears.exact.perm (Bears.entries_perm q.id p.id _ p.head q.before p.before q.after _).symm
    simpa [Spot.close, child, h.after] using hexact

end Placed

/-! ## Changes of the frames -/

namespace Builds

theorem congr (h : d.Builds path frames) (hblocks : d'.blocks = d.blocks) : d'.Builds path frames := by
  obtain ⟨p, ps, hplaced, rfl⟩ := h
  exact ⟨p, ps, hplaced.congr hblocks, rfl⟩

/-- There is one frame for each block of the path, and one for the root. -/
theorem length_eq (h : d.Builds path frames) : frames.length = path.length + 1 := by
  obtain ⟨p, ps, hplaced, rfl⟩ := h
  simpa using congrArg length hplaced.ids

section

variable (h : d.Builds path (f :: fs))
include h

/-- Nothing stands behind the end of the innermost block. -/
theorem after_eq : f.after = [] := by
  obtain ⟨p, ps, hplaced, hframes⟩ := h
  obtain ⟨rfl, -⟩ := cons.inj hframes
  rw [Spot.frame, hplaced.after]
  rfl

/-- A node that is no block goes to the end of the innermost block. -/
theorem push {t : Twig} {n : Node} (hn : t.nodes = [n]) (hentries : t.entries = []) :
    (d.pushChild (path.head?.getD root) t.child).Builds path (f.push n :: fs) := by
  obtain ⟨p, ps, hplaced, hframes⟩ := h
  obtain ⟨rfl, rfl⟩ := cons.inj hframes
  have hlost : t.lost = [] := by cases t <;> simp_all [Twig.nodes, Twig.entries, lost]
  rw [← hplaced.id_eq]
  refine ⟨{ p with before := p.before ++ [t] }, ps, hplaced.modify ?_ ?_ ?_, ?_⟩
  · simp [Block.pushChild, Head.block]
  · simp [entriesOf, hentries]
  · simp [lostOf, hlost, (hplaced.whole p mem_cons_self).1]
  · simp [Spot.frame, Frame.push, nodesOf, hn]

/-- A declaration is read into the innermost block. -/
theorem declare (property : String) (value : Value) :
    (d.modify (path.head?.getD root) fun b =>
      { b with declarations := b.declarations.insert property value }).Builds path
        (f.declare property value :: fs) := by
  obtain ⟨p, ps, hplaced, hframes⟩ := h
  obtain ⟨rfl, rfl⟩ := cons.inj hframes
  rw [← hplaced.id_eq]
  exact ⟨{ p with head := { p.head with declarations := p.head.declarations.insert property value } }, ps,
    hplaced.modify rfl rfl (hplaced.whole p mem_cons_self).1, rfl⟩

/-- A new block is opened at the end of the innermost one. -/
theorem addBlock (name : String) (kind : BlockKind) :
    (d.addBlock (path.head?.getD root) { name, kind }).Builds (d.fresh :: path)
      ({ name, kind } :: f :: fs) := by
  obtain ⟨p, ps, hplaced, hframes⟩ := h
  rw [← hplaced.id_eq, ← hframes]
  exact ⟨_, _, hplaced.addBlock { name, kind }, rfl⟩

end

/-- The innermost block is closed. -/
theorem close {g : Frame} (h : d.Builds (id :: path) (f :: g :: fs)) : d.Builds path (f.close g :: fs) := by
  obtain ⟨p, ps, hplaced, hframes⟩ := h
  cases ps with
  | nil => simp at hframes
  | cons q ps =>
    simp only [map_cons, cons.injEq] at hframes
    obtain ⟨rfl, rfl, rfl⟩ := hframes
    exact ⟨_, _, hplaced.close, by rw [map_cons, Spot.frame_close]⟩

/-- All blocks but the root are closed. -/
theorem closeAll (h : d.Builds path (f :: fs)) : d.Builds [] [f.closeAll fs] := by
  induction fs generalizing path f with
  | nil =>
    obtain rfl : path = [] := by simpa using h.length_eq
    exact h
  | cons g fs ih =>
    cases path with
    | nil => simpa using h.length_eq
    | cons id path => exact ih h.close

end Builds

theorem empty_builds : empty.Builds [] [Frame.root] :=
  ⟨⟨root, Head.root, [], []⟩, [], ⟨rfl, plants_empty, rfl, by simp [lostOf]⟩, rfl⟩

/-! ## Looking into the innermost block -/

/-- The children of the innermost block are the nodes in it. -/
theorem Placed.children_inner (h : d.Placed path p ps) :
    ((d.get? (path.head?.getD root)).map (·.children)).getD [] = p.before.map child := by
  rw [← h.id_eq, h.bears.get?_parent]
  rfl

/-- A block of the table that the innermost block refers to stands in it, and can be gone on with. -/
theorem Builds.exists_reopen (h : d.Builds path (f :: fs)) (hid : id ∈ d.childBlocks (path.head?.getD root)) :
    ∃ left name kind ds children right,
      f.before = left ++ .block name kind ds children :: right ∧
      (∃ cs, d.get? id = some ⟨name, kind, ds, cs⟩) ∧
      d.Builds (id :: path) ({ name, kind, declarations := ds, before := children } ::
        { f with before := left, after := right } :: fs) := by
  obtain ⟨p, ps, hplaced, hframes⟩ := h
  obtain ⟨rfl, rfl⟩ := cons.inj hframes
  rw [← hplaced.id_eq, hplaced.bears.childBlocks_parent] at hid
  rcases mem_idsOf hid with ⟨hd, cs, hmem⟩ | hgone
  · obtain ⟨left, right, hsplit⟩ := append_of_mem hmem
    refine ⟨nodesOf left, hd.name, hd.kind, hd.declarations, nodesOf cs, nodesOf right, ?_,
      ⟨_, hplaced.bears.get?_of_mem hmem⟩, _, _, hplaced.reopen hsplit, ?_⟩
    · simp [Spot.frame, hsplit, nodesOf, Twig.nodes]
    · simp [Spot.frame, nodesOf]
  · have hnone := lostOf_eq_nil_iff.mp (hplaced.whole p mem_cons_self).1 _ hgone
    simp [lost] at hnone

/-- Each open block stands in the one before it, and all of them are there. -/
theorem Builds.isChain (h : d.Builds path frames) :
    (path ++ [root]).IsChain (fun inner outer => inner ∈ d.childBlocks outer) ∧
      ∀ id ∈ path ++ [root], d.isLive id := by
  obtain ⟨p, ps, hplaced, -⟩ := h
  rw [← hplaced.ids]
  have hlive : d.isLive p.id := by simp [isLive, hplaced.bears.get?_parent]
  have hholds : d.Holds (Spot.entries p.id ps) :=
    hplaced.bears.exact.holds.of_subset fun e he => mem_cons_of_mem _ (mem_append_right _ he)
  clear hplaced
  induction ps generalizing p with
  | nil => simpa using hlive
  | cons q qs ih =>
    have hget := hholds _ mem_cons_self
    obtain ⟨hchain, hmore⟩ := ih q (by simp [isLive, hget]) (hholds.of_subset fun e he => by simp [Spot.entries, he])
    refine ⟨List.IsChain.cons_cons ?_ hchain, forall_mem_cons.mpr ⟨hlive, hmore⟩⟩
    exact mem_childBlocks.mpr ⟨_, hget, by simp⟩

/-! ## The tree of the document -/

/-- The document is the tree whose open blocks are all closed. -/
theorem Builds.tree_eq (h : d.Builds path (f :: fs)) : d.tree = (f.closeAll fs).before := by
  obtain ⟨p, ps, hplaced, hframes⟩ := h.closeAll
  simp only [map_cons, cons.injEq, map_eq_nil_iff] at hframes
  obtain ⟨hframe, rfl⟩ := hframes
  have hbears := hplaced.bears
  rw [hplaced.id_eq] at hbears
  rw [← hframe]
  exact hbears.tree_eq

/-- The table holds the tree whose open blocks are all closed, and nothing else. -/
theorem Builds.plants (h : d.Builds path (f :: fs)) (hroot : Frame.Rooted (f :: fs)) :
    ∃ ts, d.Plants ts ∧ lostOf ts = [] := by
  obtain ⟨p, ps, hplaced, hframes⟩ := h.closeAll
  simp only [map_cons, cons.injEq, map_eq_nil_iff] at hframes
  obtain ⟨hframe, rfl⟩ := hframes
  have hhead : p.head = Head.root := Frame.head_closeAll hroot ▸ congrArg Frame.head hframe
  have hbears := hplaced.bears
  rw [hplaced.id_eq, hhead] at hbears
  exact ⟨p.before, hbears, (hplaced.whole p mem_cons_self).1⟩

end Document

end Stylesheet
