import Stylesheet.Proofs.Document.Walk

/-!
# Changes below a block

Three kinds of changes are made to documents after they have been read.

* A block gets another head and other children, of which the table already holds the entries (`Bears.modify`), or a new
  block between its children (`Bears.insertBlockAt`).
* All blocks get other declarations (`Plants.redeclare`).
* A pass goes through the children of a block one by one, and puts any number of twigs in the place of each
  (`foldl_children`). What a pass does is known from what it does with one child.

A pass may look up blocks in two ways: with a lookup that gives something harmless for a block that is gone, or with one
that fails there. The lemma on passes is about both at once. Where the second does not fail, the two do the same.

`Twig.Sound` says that no at-rule with nothing but at-rules around it refers to a block that is gone. Selectors may do
so, since no pass goes into them.
-/

namespace Stylesheet

open List

namespace Twig

variable {ts us : List Twig}

/-! ## Sound twigs -/

mutual

/-- The twig is there, and if it is an at-rule, so are all twigs in it. -/
def Sound : Twig → Prop
  | block _ h cs => h.isAtBlock = true → SoundOf cs
  | gone _ => False
  | _ => True

/-- All the twigs are sound. -/
def SoundOf : List Twig → Prop
  | [] => True
  | t :: ts => t.Sound ∧ SoundOf ts

end

theorem soundOf_iff : SoundOf ts ↔ ∀ t ∈ ts, t.Sound := by
  induction ts with
  | nil => simp [SoundOf]
  | cons t ts ih => rw [SoundOf, ih, forall_mem_cons]

@[simp] theorem soundOf_append : SoundOf (ts ++ us) ↔ SoundOf ts ∧ SoundOf us := by
  simp only [soundOf_iff, forall_mem_append]

/-- Where nothing is lost, all is sound. -/
theorem soundOf_of_lostOf (ts : List Twig) (h : lostOf ts = []) : SoundOf ts := by
  induction ts using listInduction with
  | nil => trivial
  | block id hd cs ts hcs hts =>
    rw [lostOf, lost, append_eq_nil_iff] at h
    exact ⟨fun _ => hcs h.1, hts h.2⟩
  | gone id ts _ => cases h
  | lineAt _ ts hts => exact ⟨trivial, hts h⟩
  | comment _ ts hts => exact ⟨trivial, hts h⟩

/-- What sound twigs refer to is among their entries. -/
theorem idsOf_sublist_of_soundOf (h : SoundOf ts) : (idsOf ts).Sublist ((entriesOf ts).map Prod.fst) := by
  induction ts with
  | nil => exact List.Sublist.refl _
  | cons t ts ih =>
    cases t with
    | block id hd cs =>
      rw [idsOf_cons_block, entriesOf, entries, cons_append, map_cons, map_append]
      exact ((ih h.2).trans (sublist_append_right _ _)).cons_cons id
    | gone id => exact h.1.elim
    | lineAt rule => exact ih h.2
    | comment text => exact ih h.2

/-! ## References to blocks that are gone -/

/-- What is left of a twig whose block is taken out of the table. -/
def wither : Twig → Twig
  | block id _ _ => gone id
  | t => t

@[simp] theorem child_wither (t : Twig) : t.wither.child = t.child := by cases t <;> rfl

@[simp] theorem entriesOf_wither (ts : List Twig) : entriesOf (ts.map wither) = [] := by
  induction ts with
  | nil => rfl
  | cons t ts ih => cases t <;> simpa [entriesOf, wither, entries] using ih

@[simp] theorem lostOf_wither (ts : List Twig) : lostOf (ts.map wither) = idsOf ts := by
  induction ts with
  | nil => rfl
  | cons t ts ih => cases t <;> simpa [lostOf, wither, lost] using ih

/-! ## Other declarations -/

mutual

/-- The twig with other declarations in its blocks. -/
def redeclare (f : BlockId → Declarations → Declarations) : Twig → Twig
  | block id h cs => block id { h with declarations := f id h.declarations } (redeclareOf f cs)
  | lineAt rule => lineAt rule
  | comment text => comment text
  | gone id => gone id

/-- The twigs with other declarations in their blocks. -/
def redeclareOf (f : BlockId → Declarations → Declarations) : List Twig → List Twig
  | [] => []
  | t :: ts => t.redeclare f :: redeclareOf f ts

end

variable {f : BlockId → Declarations → Declarations}

theorem map_child_redeclareOf (ts : List Twig) : (redeclareOf f ts).map child = ts.map child := by
  induction ts with
  | nil => rfl
  | cons t ts ih =>
    rw [redeclareOf, map_cons, map_cons, ih]
    cases t <;> rfl

theorem entriesOf_redeclareOf (ts : List Twig) : entriesOf (redeclareOf f ts)
    = (entriesOf ts).map fun e => (e.1, { e.2 with declarations := f e.1 e.2.declarations }) := by
  induction ts using listInduction with
  | nil => rfl
  | block id h cs ts hcs hts =>
    rw [redeclareOf, redeclare, entriesOf, entries, entriesOf, entries, map_append, map_cons,
      map_child_redeclareOf, hcs, hts]
    rfl
  | gone _ ts hts => exact hts
  | lineAt _ ts hts => exact hts
  | comment _ ts hts => exact hts

theorem lostOf_redeclareOf (ts : List Twig) : lostOf (redeclareOf f ts) = lostOf ts := by
  induction ts using listInduction with
  | nil => rfl
  | block id h cs ts hcs hts => rw [redeclareOf, redeclare, lostOf, lost, lostOf, lost, hcs, hts]
  | gone id ts hts => exact congrArg (id :: ·) hts
  | lineAt _ ts hts => exact hts
  | comment _ ts hts => exact hts

theorem soundOf_redeclareOf (ts : List Twig) (h : SoundOf ts) : SoundOf (redeclareOf f ts) := by
  induction ts using listInduction with
  | nil => trivial
  | block id hd cs ts hcs hts => exact ⟨fun hat => hcs (h.1 hat), hts h.2⟩
  | gone _ ts hts => exact h.1.elim
  | lineAt _ ts hts => exact ⟨trivial, hts h.2⟩
  | comment _ ts hts => exact ⟨trivial, hts h.2⟩

/-! ## Each twig in its turn -/

/-- The second list has, for each twig of the first in its turn, some twigs that are related to it. -/
inductive Each (R : Twig → List Twig → Prop) : List Twig → List Twig → Prop
  | nil : Each R [] []
  | cons {t : Twig} {us ts vs : List Twig} (head : R t us) (tail : Each R ts vs) : Each R (t :: ts) (us ++ vs)

theorem Each.lost {R : Twig → List Twig → Prop} (h : Each R ts us)
    (hR : ∀ t vs, R t vs → t.lost = [] → lostOf vs = []) (hlost : lostOf ts = []) : lostOf us = [] := by
  induction h with
  | nil => rfl
  | cons head _ ih =>
    rw [lostOf, append_eq_nil_iff] at hlost
    rw [lostOf_append, hR _ _ head hlost.1, ih hlost.2, append_nil]

theorem Each.sound {R : Twig → List Twig → Prop} (h : Each R ts us)
    (hR : ∀ t ∈ ts, ∀ vs, R t vs → SoundOf vs) : SoundOf us := by
  induction h with
  | nil => trivial
  | cons head _ ih =>
    rw [forall_mem_cons] at hR
    exact soundOf_append.mpr ⟨hR.1 _ head, ih hR.2⟩

end Twig

namespace Document

open Twig

/-- The first document has become the second, in which a block holds the given twigs. -/
structure Becomes (d d' : Document) (parent : BlockId) (h : Head) (ts : List Twig) (rest : List (BlockId × Block)) :
    Prop where
  leads : d.Leads d'
  bears : d'.Bears parent h ts rest

variable {d d' d'' : Document} {parent id : BlockId} {h hd hd' : Head} {ts left right cs cs' : List Twig}
  {rest : List (BlockId × Block)}

theorem Becomes.refl (hb : d.Bears parent h ts rest) : d.Becomes d parent h ts rest := ⟨.refl d, hb⟩

theorem Becomes.trans_leads (hb : d'.Becomes d'' parent h ts rest) (hleads : d.Leads d') :
    d.Becomes d'' parent h ts rest := ⟨hleads.trans hb.leads, hb.bears⟩

/-- What was done to a block is done inside of the one around it. -/
theorem Becomes.leave (hb : d.Bears parent h (left ++ .block id hd cs :: right) rest)
    (hinner : d.Becomes d' id hd' cs' ((parent, h.block ((left ++ .block id hd cs :: right).map child))
      :: (entriesOf left ++ entriesOf right ++ rest))) :
    d.Becomes d' parent h (left ++ .block id hd' cs' :: right) rest :=
  ⟨hinner.leads, hb.leave hinner.leads hinner.bears⟩

/-- A removed block takes all that is in it along. -/
theorem Bears.remove_becomes (hb : d.Bears parent h (left ++ .block id hd cs :: right) rest) :
    d.Becomes (d.remove parent id) parent h (left ++ right) rest :=
  ⟨leads_remove d parent id, hb.remove⟩

/-- A block gets another head and other children, without new entries. -/
theorem Bears.modify (hb : d.Bears parent h ts rest) {f : Block → Block}
    (hf : f (h.block (ts.map child)) = hd.block (cs.map child)) (hentries : entriesOf cs = entriesOf ts)
    (hspent : ∀ x ∈ lostOf cs, d.Spent x) : d.Becomes (d.modify parent f) parent hd cs rest := by
  have hleads := leads_modify d parent f
  refine ⟨hleads, ?_, fun x hx => (hspent x hx).leads hleads⟩
  have hexact := hb.exact.modify f
  rwa [hf, ← hentries] at hexact

/-- A block in a block gets another head and other children, without new entries. -/
theorem Bears.modifyChild (hb : d.Bears parent h (left ++ .block id hd cs :: right) rest) {f : Block → Block}
    (hf : f (hd.block (cs.map child)) = hd'.block (cs'.map child)) (hentries : entriesOf cs' = entriesOf cs)
    (hspent : ∀ x ∈ lostOf cs', d.Spent x) :
    d.Becomes (d.modify id f) parent h (left ++ .block id hd' cs' :: right) rest :=
  .leave hb (hb.enter.modify hf hentries hspent)

/-- A new block between the children of a block, without entries of its own. -/
theorem Bears.insertBlockAt (hb : d.Bears parent h (left ++ right) rest) (hentries : entriesOf cs = [])
    (hspent : ∀ x ∈ lostOf cs, d.Spent x) :
    d.Becomes (d.insertBlockAt parent left.length (hd.block (cs.map child))) parent h
      (left ++ .block d.fresh hd cs :: right) rest := by
  have hleads := leads_insertBlockAt d parent left.length (hd.block (cs.map child))
  refine ⟨hleads, ?_, fun x hx => ?_⟩
  · have halloc := (hb.exact.alloc (hd.block (cs.map child))).perm (List.Perm.swap _ _ _)
    have hexact := halloc.modify fun p =>
      { p with children := p.children.take left.length ++ .block d.fresh :: p.children.drop left.length }
    have hblock : ({ h.block ((left ++ right).map child) with
        children := (h.block ((left ++ right).map child)).children.take left.length ++ .block d.fresh ::
          (h.block ((left ++ right).map child)).children.drop left.length } : Block)
          = h.block ((left ++ .block d.fresh hd cs :: right).map child) := by
      simp [Head.block, child]
    rw [hblock] at hexact
    refine hexact.perm (perm_iff_count.mpr fun e => ?_)
    simp only [entriesOf_append, entriesOf, entries, hentries, count_cons, count_append, cons_append, nil_append]
    ring
  · simp only [lostOf_append, lostOf, lost, mem_append] at hx
    rcases hx with hx | hx | hx
    · exact (hb.spent x (by simp [hx])).leads hleads
    · exact (hspent x hx).leads hleads
    · exact (hb.spent x (by simp [hx])).leads hleads

/-- Two changes of a block that do the same to it. -/
theorem modify_congr {b : Block} {f g : Block → Block} (hget : d.get? id = some b)
    (hfg : f b = g b) : d.modify id f = d.modify id g := by
  simp only [modify, hget, hfg]

/-- A block at the end of another one is put behind all its children. -/
theorem addBlock_eq_insertBlockAt {p : Block} (hget : d.get? parent = some p)
    (b : Block) : d.addBlock parent b = d.insertBlockAt parent p.children.length b := by
  refine modify_congr (get?_alloc_of_get? hget b) ?_
  simp [Block.pushChild]

/-! ## Passes -/

theorem Bears.nodup_idsOf (hb : d.Bears parent h ts rest) (hsound : SoundOf ts) : (idsOf ts).Nodup := by
  have hnodup := (nodup_cons.mp hb.exact.nodup).2
  rw [map_append] at hnodup
  exact hnodup.of_append_left.sublist (idsOf_sublist_of_soundOf hsound)

/-- The blocks among the children of a block, if the block is there and all of them are. -/
def listedBlocks? (d : Document) (id : BlockId) : Option (List BlockId) :=
  (d.get? id).bind fun b => if b.childBlocks.all d.isLive then some b.childBlocks else none

theorem Bears.listedBlocks? (hb : d.Bears parent h ts rest) (hsound : SoundOf ts) :
    d.listedBlocks? parent = some (idsOf ts) := by
  rw [Document.listedBlocks?, hb.get?_parent, Option.bind_some]
  refine if_pos (all_eq_true.mpr fun id hid => ?_)
  rcases mem_idsOf hid with ⟨hd, cs, hmem⟩ | hmem
  · rw [isLive, hb.get?_of_mem hmem]
    rfl
  · exact (soundOf_iff.mp hsound _ hmem).elim

/-- The first of some blocks that satisfies a condition. Fails if a block that is looked up on the way is gone. -/
def firstBlock? (d : Document) (p : Block → Bool) : List BlockId → Option (Option BlockId)
  | [] => some none
  | id :: ids => do
    let b ← d.get? id
    if p b then return some id else d.firstBlock? p ids

theorem firstBlock?_eq {p : Block → Bool} {ids : List BlockId} (hlive : ∀ id ∈ ids, d.isLive id) :
    d.firstBlock? p ids = some (ids.find? fun id => (d.get? id).any p) := by
  induction ids with
  | nil => rfl
  | cons id ids ih =>
    rw [forall_mem_cons] at hlive
    obtain ⟨b, hb⟩ := Option.isSome_iff_exists.mp hlive.1
    rw [firstBlock?, find?_cons, hb, Option.any_some, ih hlive.2, Option.bind_eq_bind, Option.bind_some]
    cases p b <;> simp

/-- **A pass through the children of a block** puts twigs in the place of each child, as it does with one of them. The
failing pass does not fail, if it does not fail at one of them. -/
theorem foldl_children {σ : Type} (doc : σ → Document) (step : σ → BlockId → σ) (strict : σ → BlockId → Option σ)
    (R : Twig → List Twig → Prop) (hsound : SoundOf ts) (hplain : ∀ t ∈ ts, t.child.blockId? = none → R t [t])
    (hstep : ∀ id hd cs, .block id hd cs ∈ ts → ∀ s left right,
      (doc s).Bears parent h (left ++ .block id hd cs :: right) rest → ∃ us, strict s id = some (step s id) ∧
        (doc s).Becomes (doc (step s id)) parent h (left ++ (us ++ right)) rest ∧ R (.block id hd cs) us)
    (s : σ) (left : List Twig) (hb : (doc s).Bears parent h (left ++ ts) rest) :
    ∃ us, (idsOf ts).foldlM strict s = some ((idsOf ts).foldl step s) ∧
      (doc s).Becomes (doc ((idsOf ts).foldl step s)) parent h (left ++ us) rest ∧ Each R ts us := by
  induction ts generalizing s left with
  | nil => exact ⟨[], rfl, .refl hb, .nil⟩
  | cons t ts ih =>
    simp only [mem_cons, forall_eq_or_imp] at hplain
    have hmore := fun s left hb =>
      ih hsound.2 hplain.2 (fun id hd cs hmem => hstep id hd cs (mem_cons_of_mem _ hmem)) s left hb
    -- the pass has nothing to do with a child that is no block
    have hskip (ht : R t [t]) (hids : idsOf (t :: ts) = idsOf ts) :
        ∃ us, (idsOf (t :: ts)).foldlM strict s = some ((idsOf (t :: ts)).foldl step s) ∧
          (doc s).Becomes (doc ((idsOf (t :: ts)).foldl step s)) parent h (left ++ us) rest ∧ Each R (t :: ts) us := by
      rw [hids]
      rw [append_cons] at hb
      obtain ⟨us, hstrict, hbecomes, heach⟩ := hmore s (left ++ [t]) hb
      rw [append_assoc] at hbecomes
      exact ⟨[t] ++ us, hstrict, hbecomes, .cons ht heach⟩
    cases t with
    | lineAt rule => exact hskip (hplain.1 rfl) rfl
    | comment text => exact hskip (hplain.1 rfl) rfl
    | gone id => exact hsound.1.elim
    | block id hd cs =>
      obtain ⟨us, hone, hfirst, hR⟩ := hstep id hd cs mem_cons_self s left ts hb
      obtain ⟨vs, hmore, hbecomes, heach⟩ := hmore (step s id) (left ++ us)
        (by rw [append_assoc]; exact hfirst.bears)
      rw [idsOf_cons_block, foldlM_cons, foldl_cons, hone]
      rw [append_assoc] at hbecomes
      exact ⟨us ++ vs, hmore, hbecomes.trans_leads hfirst.leads, .cons hR heach⟩

/-! ## Whole documents -/

/-- All blocks of a document get other declarations, and the root gets none. -/
theorem Plants.redeclare (hp : d.Plants ts) {f : BlockId → Declarations → Declarations}
    (hget : ∀ id, d'.get? id = (d.get? id).map fun b => { b with declarations := f id b.declarations })
    (hsize : d'.blocks.size = d.blocks.size) (hroot : f root .empty = .empty) : d'.Plants (redeclareOf f ts) := by
  constructor
  · have hexact := hp.exact.map hget
    rw [map_cons] at hexact
    rw [map_child_redeclareOf, entriesOf_redeclareOf, append_nil]
    have hblock : ({ Head.root.block (ts.map child) with
        declarations := f root (Head.root.block (ts.map child)).declarations } : Block) = Head.root.block (ts.map child) := by
      rw [Head.declarations_block]
      have hempty : Head.root.declarations = .empty := rfl
      rw [hempty, hroot]
      rfl
    rwa [hblock] at hexact
  · intro id hid
    rw [lostOf_redeclareOf] at hid
    obtain ⟨hlt, hnone⟩ := hp.spent id hid
    exact ⟨by rwa [hsize], by rw [hget, hnone]; rfl⟩

end Document

end Stylesheet
