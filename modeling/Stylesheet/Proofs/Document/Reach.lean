import Stylesheet.Proofs.Document.Change

/-!
# What is reached through at-rules

Passes go from the root into at-rules and never into selectors. `Document.Reached` follows them, and so does
`Twig.Throughout`, which asks something of the blocks that stand side by side, at every place that a pass comes to.

A document is well formed if a walk meets every block once, and only blocks that are there. A document that is its root
with given twigs is well formed if nothing is lost (`Plants.wellFormed_iff`).
-/

namespace Stylesheet

open List

/-- What the block has besides what stands in it. -/
def Block.head (b : Block) : Head := ⟨b.name, b.kind, b.declarations⟩

namespace Twig

/-- The blocks among the twigs that are there. -/
def blocksOf (ts : List Twig) : List Block :=
  ts.filterMap fun
    | block _ h cs => some (h.block (cs.map child))
    | _ => none

@[simp] theorem blocksOf_nil : blocksOf [] = [] := rfl

@[simp] theorem blocksOf_cons_block (id : BlockId) (h : Head) (cs ts : List Twig) :
    blocksOf (block id h cs :: ts) = h.block (cs.map child) :: blocksOf ts := rfl

@[simp] theorem blocksOf_cons_gone (id : BlockId) (ts : List Twig) : blocksOf (gone id :: ts) = blocksOf ts := rfl

@[simp] theorem blocksOf_cons_lineAt (rule : LineAt) (ts : List Twig) : blocksOf (lineAt rule :: ts) = blocksOf ts := rfl

@[simp] theorem blocksOf_cons_comment (text : String) (ts : List Twig) : blocksOf (comment text :: ts) = blocksOf ts :=
  rfl

mutual

/-- If the twig is an at-rule, the condition holds for the blocks in it, and in every at-rule in it. -/
def Inside (P : List Block → Prop) : Twig → Prop
  | block _ h cs => h.isAtBlock = true → P (blocksOf cs) ∧ InsideOf P cs
  | _ => True

/-- The condition holds for the blocks in every at-rule among the twigs, and in every at-rule in them. -/
def InsideOf (P : List Block → Prop) : List Twig → Prop
  | [] => True
  | t :: ts => t.Inside P ∧ InsideOf P ts

end

theorem insideOf_iff {P : List Block → Prop} {ts : List Twig} : InsideOf P ts ↔ ∀ t ∈ ts, t.Inside P := by
  induction ts with
  | nil => simp [InsideOf]
  | cons t ts ih => rw [InsideOf, ih, forall_mem_cons]

/-- The condition holds for the blocks among the twigs, and for those in every at-rule that is reached from them. -/
def Throughout (P : List Block → Prop) (ts : List Twig) : Prop := P (blocksOf ts) ∧ InsideOf P ts

end Twig

namespace Document

open Twig

/-! ## Blocks that passes come to -/

/-- The block is the given one, or an at-rule that stands in a block that is reached. -/
inductive Reached (d : Document) (start : BlockId) : BlockId → Prop
  | start : Reached d start start
  | child {outer id : BlockId} {b : Block} (reached : Reached d start outer) (hid : id ∈ d.childBlocks outer)
      (hget : d.get? id = some b) (hat : b.isAtBlock = true) : Reached d start id

theorem Reached.trans {d : Document} {start middle id : BlockId} (h : d.Reached start middle) (h' : d.Reached middle id) :
    d.Reached start id := by
  induction h' with
  | start => exact h
  | child _ hid hget hat ih => exact .child ih hid hget hat

/-- The block is the given one, or a block that is gone into and stands in such a block. -/
inductive Entered (enters : Head → Bool) (d : Document) (start : BlockId) : BlockId → Prop
  | start : Entered enters d start start
  | child {outer id : BlockId} {b : Block} (entered : Entered enters d start outer) (hid : id ∈ d.childBlocks outer)
      (hget : d.get? id = some b) (henters : enters b.head = true) : Entered enters d start id

theorem reached_iff_entered {d : Document} {start id : BlockId} : d.Reached start id ↔ d.Entered Head.isAtBlock start id := by
  constructor
  · intro h
    induction h with
    | start => exact .start
    | child _ hid hget hat ih => exact .child ih hid hget hat
  · intro h
    induction h with
    | start => exact .start
    | child _ hid hget hat ih => exact .child ih hid hget hat

/-- The blocks that stand in a block. -/
def siblings (d : Document) (id : BlockId) : List Block := (d.childBlocks id).filterMap d.get?

/-- No block that passes come to refers to a block that is gone. -/
def Sound (d : Document) : Prop := ∀ id, d.Reached root id → ∀ c ∈ d.childBlocks id, d.isLive c

variable {enters : Head → Bool} {d : Document} {parent id : BlockId} {h hd : Head} {ts cs : List Twig}
  {rest : List (BlockId × Block)}

/-- Looking up what twigs refer to meets the blocks that are there. -/
theorem Bears.filterMap_idsOf {β : Type} (hb : d.Bears parent h ts rest) (f : BlockId → Block → β) :
    ((idsOf ts).filterMap fun c => (d.get? c).map (f c)) = ts.filterMap fun
      | .block id hd cs => some (f id (hd.block (cs.map child)))
      | _ => none := by
  suffices hsub : ∀ us ⊆ ts, ((idsOf us).filterMap fun c => (d.get? c).map (f c)) = us.filterMap fun
      | .block id hd cs => some (f id (hd.block (cs.map child)))
      | _ => none from hsub ts (List.Subset.refl _)
  intro us hus
  induction us with
  | nil => rfl
  | cons t us ih =>
    obtain ⟨ht, hus⟩ := cons_subset.mp hus
    have hrest := ih hus
    cases t with
    | block id hd cs => simpa [hb.get?_of_mem ht] using hrest
    | gone id => simpa [hb.get?_of_gone ht] using hrest
    | lineAt rule => exact hrest
    | comment text => exact hrest

theorem Bears.siblings_eq (hb : d.Bears parent h ts rest) : d.siblings parent = blocksOf ts := by
  have hblocks := hb.filterMap_idsOf fun _ b => b
  simp only [Option.map_id'] at hblocks
  rw [siblings, hb.childBlocks_parent, hblocks, blocksOf]

theorem Bears.enter_of_mem (hb : d.Bears parent h ts rest) (hmem : .block id hd cs ∈ ts) :
    ∃ rest', d.Bears id hd cs rest' := by
  obtain ⟨left, right, rfl⟩ := append_of_mem hmem
  exact ⟨_, hb.enter⟩

/-- What blocks hand on to the blocks in them that are gone into holds wherever a pass comes. -/
theorem Bears.of_entered {J : BlockId → Head → List Twig → Prop}
    (hJ : ∀ p h ts id hd cs, J p h ts → .block id hd cs ∈ ts → enters hd = true → d.get? id = some (hd.block (cs.map child)) →
      id ∈ d.childBlocks p → J id hd cs)
    (hb : d.Bears parent h ts rest) (hts : J parent h ts) (hid : d.Entered enters parent id) :
    ∃ h' ts' rest', d.Bears id h' ts' rest' ∧ J id h' ts' := by
  induction hid with
  | start => exact ⟨h, ts, rest, hb, hts⟩
  | child _ hid hget henters ih =>
    obtain ⟨h', ts', rest', hb', hts'⟩ := ih
    have hid' := hid
    rw [hb'.childBlocks_parent] at hid
    rcases mem_idsOf hid with ⟨hd, cs, hmem⟩ | hmem
    · obtain ⟨rest'', hinner⟩ := hb'.enter_of_mem hmem
      rw [hb'.get?_of_mem hmem] at hget
      cases hget
      exact ⟨hd, cs, rest'', hinner, hJ _ h' ts' _ hd cs hts' hmem henters (hb'.get?_of_mem hmem) hid'⟩
    · rw [hb'.get?_of_gone hmem] at hget
      cases hget

/-- What at-rules hand on to what is in them holds wherever passes come. -/
theorem Bears.of_reached {J : List Twig → Prop}
    (hJ : ∀ ts id hd cs, J ts → .block id hd cs ∈ ts → hd.isAtBlock = true → J cs)
    (hb : d.Bears parent h ts rest) (hts : J ts) (hid : d.Reached parent id) :
    ∃ h' ts' rest', d.Bears id h' ts' rest' ∧ J ts' :=
  hb.of_entered (J := fun _ _ ts => J ts) (fun _ _ ts id hd cs hts hmem hat _ _ => hJ ts id hd cs hts hmem hat) hts
    (reached_iff_entered.mp hid)

theorem Bears.isLive_of_reached (hb : d.Bears parent h ts rest) (hsound : SoundOf ts) (hid : d.Reached parent id) :
    ∀ c ∈ d.childBlocks id, d.isLive c := by
  obtain ⟨h', ts', rest', hb', hsound'⟩ := hb.of_reached (J := SoundOf)
    (fun ts _ _ _ hts hmem hat => soundOf_iff.mp hts _ hmem hat) hsound hid
  intro c hc
  rw [hb'.childBlocks_parent] at hc
  rcases mem_idsOf hc with ⟨hd, cs, hmem⟩ | hmem
  · rw [isLive, hb'.get?_of_mem hmem]
    rfl
  · exact (soundOf_iff.mp hsound' _ hmem).elim

theorem Plants.sound (hp : d.Plants ts) (hsound : SoundOf ts) : d.Sound :=
  fun _ hid => Bears.isLive_of_reached hp hsound hid

/-- A condition holds at every block that passes come to if it holds throughout the twigs. -/
theorem Bears.forall_reached_iff {P : List Block → Prop} (hb : d.Bears parent h ts rest) :
    (∀ id, d.Reached parent id → P (d.siblings id)) ↔ Throughout P ts := by
  constructor
  · intro hall
    refine ⟨hb.siblings_eq ▸ hall parent .start, ?_⟩
    -- by induction on the twigs, entering each at-rule
    suffices hinside : ∀ us (ts : List Twig) parent h rest, us ⊆ ts → d.Bears parent h ts rest →
        (∀ id, d.Reached parent id → P (d.siblings id)) → InsideOf P us from
      hinside ts ts parent h rest (List.Subset.refl _) hb hall
    intro us
    induction us using listInduction with
    | nil => exact fun _ _ _ _ _ _ _ => trivial
    | block id hd cs us hcs ih =>
      intro ts parent h rest hus hb hall
      obtain ⟨ht, hus⟩ := cons_subset.mp hus
      refine ⟨fun hat => ?_, ih ts parent h rest hus hb hall⟩
      obtain ⟨rest', hinner⟩ := hb.enter_of_mem ht
      have hid : d.Reached parent id := by
        refine .child .start ?_ (hb.get?_of_mem ht) hat
        rw [hb.childBlocks_parent]
        exact mem_filterMap.mpr ⟨_, mem_map_of_mem ht, rfl⟩
      exact ⟨hinner.siblings_eq ▸ hall id hid,
        hcs cs id hd rest' (List.Subset.refl _) hinner fun x hx => hall x (hid.trans hx)⟩
    | _ =>
      rename_i ih
      intro ts parent h rest hus hb hall
      exact ⟨trivial, ih ts parent h rest (cons_subset.mp hus).2 hb hall⟩
  · intro hts id hid
    obtain ⟨h', ts', rest', hb', hts'⟩ := hb.of_reached (J := Throughout P)
      (fun ts _ _ _ hts hmem hat => insideOf_iff.mp hts.2 _ hmem hat) hts hid
    rw [hb'.siblings_eq]
    exact hts'.1

/-! ## Well-formed documents -/

/-- Every block that the tree refers to is there, and is referred to once. -/
def WellFormed (d : Document) : Prop := d.walk.Nodup ∧ ∀ id ∈ d.walk, d.isLive id

instance (d : Document) : Decidable d.WellFormed := inferInstanceAs (Decidable (_ ∧ _))

theorem Plants.wellFormed_iff (hp : d.Plants ts) : d.WellFormed ↔ lostOf ts = [] := by
  rw [WellFormed, hp.walk_eq]
  constructor
  · rintro ⟨-, hlive⟩
    refine eq_nil_iff_forall_not_mem.mpr fun id hid => ?_
    have hmem := hlive id (mem_cons_of_mem _ ((mem_walkedOf ts).mpr (.inr hid)))
    rw [isLive, (hp.spent id hid).2] at hmem
    cases hmem
  · intro hlost
    rw [walkedOf_eq ts hlost]
    refine ⟨hp.exact.nodup, fun id hid => hp.isLive_iff.mpr ?_⟩
    exact mem_cons.mp hid

end Document

end Stylesheet
