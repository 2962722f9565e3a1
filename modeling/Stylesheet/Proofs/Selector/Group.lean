import Stylesheet.Selector.Group
import Stylesheet.Proofs.Declarations.Entries
import Stylesheet.Proofs.Document.Rework
import Stylesheet.Proofs.Selector.Faithful

/-!
# Grouping selectors with equal declarations

A selector that joins a group is removed from the table before what stands in it is handed on to the group. Blocks that
stand in it are gone by then, and the group refers to nothing. So grouping loses nothing exactly where no selector that
joins another one holds blocks (`Mergeable`).

The strict pass looks the children of a block up again after each group, where the other one goes through a list of them
and passes over those that are gone. That both come to the same is part of the proof.
-/

namespace Stylesheet

open Twig Document List Head

/-! ## Equal declarations -/

namespace Declarations

/-- Declarations are the same if they are the same up to their order. -/
theorem sameAs_iff_perm {d e : Declarations} : d.sameAs e = true ↔ d.entries.Perm e.entries := by
  rw [sameAs, Bool.and_eq_true, beq_iff_eq, all_eq_true]
  constructor
  · rintro ⟨hsize, hall⟩
    have hsub : d.entries ⊆ e.entries := fun x hx => get?_eq_some_iff.mp (beq_iff_eq.mp (hall x hx))
    exact (subperm_of_subset d.distinct.of_map hsub).perm_of_length_le (Nat.le_of_eq hsize.symm)
  · intro hperm
    exact ⟨hperm.length_eq, fun x hx => beq_iff_eq.mpr (get?_eq_some_iff.mpr (hperm.mem_iff.mp hx))⟩

theorem isEmpty_eq_of_sameAs {d e : Declarations} (h : d.sameAs e = true) : d.isEmpty = e.isEmpty := by
  rw [Bool.eq_iff_iff, isEmpty, isEmpty, isEmpty_iff_length_eq_zero, isEmpty_iff_length_eq_zero,
    (sameAs_iff_perm.mp h).length_eq]

end Declarations

namespace Strict

open Selector

/-- Gathers a group, and fails if a block that is looked up is gone. -/
def gatherGroup (adjacent : Bool) (parent group : BlockId) : Document → List BlockId → Option Logged
  | d, [] => some (d, [])
  | d, id :: rest => do
    let b ← d.get? id
    let g ← d.get? group
    if b.isSelector && b.declarations.sameAs g.declarations then
      let _ ← (d.remove parent id).get? group
      let joined := joinGroup d parent group b id
      let more ← gatherGroup adjacent parent group joined.1 rest
      return (more.1, joined.2 ++ more.2)
    else if adjacent then return (d, [])
    else gatherGroup adjacent parent group d rest

/-- Groups the children of a block from a place on. They are looked up again in every round, and no more than the given
number of rounds may be taken. -/
def groupRounds (adjacent : Bool) (parent : BlockId) : Nat → Nat → Document → Option Logged
  | 0, _, _ => none
  | rounds + 1, place, d => do
    let siblings ← d.listedBlocks? parent
    match siblings[place]? with
    | none => return (d, [])
    | some id =>
      let b ← d.get? id
      if !b.isSelector || b.declarations.isEmpty then groupRounds adjacent parent rounds (place + 1) d
      else
        let gathered ← gatherGroup adjacent parent id d (siblings.drop (place + 1))
        let more ← groupRounds adjacent parent rounds (place + 1) gathered.1
        return (more.1, gathered.2 ++ more.2)

/-- Groups selectors, and fails if a block that is looked up is gone or the descent is cut short. -/
def groupFrom (adjacent : Bool) : Nat → Document → BlockId → Option Logged
  | 0, _, _ => none
  | depth + 1, d, parent => do
    let siblings ← d.listedBlocks? parent
    let grouped ← groupRounds adjacent parent (siblings.length + 1) 0 d
    (← grouped.1.listedBlocks? parent).foldlM (fun (acc : Logged) id => do
      let b ← acc.1.get? id
      if b.isAtBlock then
        let inner ← groupFrom adjacent depth acc.1 id
        return (inner.1, acc.2 ++ inner.2)
      else return acc) grouped

end Strict

namespace Selector

/-! ## Which selectors join others -/

/-- The second block joins the first, if the first is the head of a group. -/
def Joins (b c : Block) : Prop :=
  b.isSelector = true ∧ c.isSelector = true ∧ b.declarations.isEmpty = false ∧
    c.declarations.sameAs b.declarations = true

/-- No block that joins an earlier one holds blocks; with `adjacent`, no block that joins the one in front of it. -/
def Mergeable (adjacent : Bool) (bs : List Block) : Prop :=
  if adjacent then bs.IsChain fun b c => Joins b c → c.childBlocks = []
  else bs.Pairwise fun b c => Joins b c → c.childBlocks = []

/-- The twig is a selector with the given declarations. -/
def joinsWith (shared : Declarations) : Twig → Bool
  | .block _ hd _ => hd.isSelector && hd.declarations.sameAs shared
  | _ => false

def isBlock : Twig → Bool
  | .block _ _ _ => true
  | _ => false

/-- The blocks that stand in the twig. -/
def held : Twig → List BlockId
  | .block _ _ cs => idsOf cs
  | _ => []

/-- The twigs that join a group with the given declarations. -/
def joined (adjacent : Bool) (shared : Declarations) : List Twig → List Twig
  | [] => []
  | t :: ts =>
    if joinsWith shared t then t :: joined adjacent shared ts
    else if adjacent && isBlock t then []
    else joined adjacent shared ts

/-- The twigs that do not join a group with the given declarations. -/
def unjoined (adjacent : Bool) (shared : Declarations) : List Twig → List Twig
  | [] => []
  | t :: ts =>
    if joinsWith shared t then unjoined adjacent shared ts
    else if adjacent && isBlock t then t :: ts
    else t :: unjoined adjacent shared ts

variable {t : Twig} {b : Block} {us : List Twig}
variable {adjacent : Bool} {shared : Declarations} {ts : List Twig}

/-- A twig that joins the group. -/
theorem joined_cons_of_joins (adjacent : Bool) (ts : List Twig) (h : joinsWith shared t = true) :
    joined adjacent shared (t :: ts) = t :: joined adjacent shared ts ∧
      unjoined adjacent shared (t :: ts) = unjoined adjacent shared ts := by
  rw [joined, unjoined, if_pos h, if_pos h]
  exact ⟨rfl, rfl⟩

/-- A twig that is passed over. -/
theorem joined_cons_of_skip (ts : List Twig) (h : joinsWith shared t = false)
    (hskip : (adjacent && isBlock t) = false) :
    joined adjacent shared (t :: ts) = joined adjacent shared ts ∧
      unjoined adjacent shared (t :: ts) = t :: unjoined adjacent shared ts := by
  simp [joined, unjoined, h, hskip]

/-- A twig that ends the group. -/
theorem joined_cons_of_stop (ts : List Twig) (h : joinsWith shared t = false) (hstop : (adjacent && isBlock t) = true) :
    joined adjacent shared (t :: ts) = [] ∧ unjoined adjacent shared (t :: ts) = t :: ts := by
  simp [joined, unjoined, h, hstop]

theorem joinsWith_of_mem_joined (h : t ∈ joined adjacent shared ts) : joinsWith shared t = true := by
  induction ts with
  | nil => cases h
  | cons u ts ih =>
    rw [joined] at h
    split at h
    · next hu =>
      rcases mem_cons.mp h with rfl | h
      · exact hu
      · exact ih h
    · split at h
      · cases h
      · exact ih h

theorem mem_iff_joined_or_unjoined : t ∈ ts ↔ t ∈ joined adjacent shared ts ∨ t ∈ unjoined adjacent shared ts := by
  induction ts with
  | nil => simp [joined, unjoined]
  | cons u ts ih =>
    rw [joined, unjoined]
    split
    · simp only [mem_cons, ih]
      tauto
    · split
      · simp
      · simp only [mem_cons, ih]
        tauto

theorem unjoined_sublist (adjacent : Bool) (shared : Declarations) (ts : List Twig) :
    (unjoined adjacent shared ts).Sublist ts := by
  induction ts with
  | nil => exact List.Sublist.refl _
  | cons t ts ih =>
    rw [unjoined]
    split
    · exact ih.cons t
    · split
      · exact List.Sublist.refl _
      · exact ih.cons_cons t

/-- A block joins the head of a group if it has its declarations. -/
theorem joins_iff {c : Block} (hb : b.isSelector = true) (hempty : b.declarations.isEmpty = false)
    (hshared : b.declarations.sameAs shared = true) :
    Joins b c ↔ (c.isSelector && c.declarations.sameAs shared) = true := by
  have hperm := Declarations.sameAs_iff_perm.mp hshared
  rw [Joins, Bool.and_eq_true, Declarations.sameAs_iff_perm, Declarations.sameAs_iff_perm]
  constructor
  · rintro ⟨-, hc, -, hsame⟩
    exact ⟨hc, hsame.trans hperm⟩
  · rintro ⟨hc, hsame⟩
    exact ⟨hb, hc, hempty, hsame.trans hperm.symm⟩

/-- In a run of neighbours with the same declarations each one joins the one in front of it. -/
theorem isChain_iff (hb : b.isSelector = true) (hempty : b.declarations.isEmpty = false)
    (hshared : b.declarations.sameAs shared = true) :
    (b :: blocksOf ts).IsChain (fun b c => Joins b c → c.childBlocks = []) ↔
      (∀ t ∈ joined true shared ts, held t = []) ∧
        (blocksOf (unjoined true shared ts)).IsChain fun b c => Joins b c → c.childBlocks = [] := by
  induction ts generalizing b with
  | nil => simp [joined, unjoined]
  | cons t ts ih =>
    cases t with
    | block id hd cs =>
      have hiff := joins_iff (c := hd.block (cs.map child)) hb hempty hshared
      rw [blocksOf_cons_block, isChain_cons_cons, hiff, joined, unjoined]
      by_cases hjoins : joinsWith shared (.block id hd cs) = true
      · obtain ⟨hselector, hsame⟩ := Bool.and_eq_true_iff.mp (hiff.mp (hiff.mpr hjoins))
        have hempty' : (hd.block (cs.map child)).declarations.isEmpty = false := by
          rw [← hempty, Declarations.isEmpty_eq_of_sameAs hshared, Declarations.isEmpty_eq_of_sameAs hsame]
        rw [if_pos hjoins, if_pos hjoins, forall_mem_cons, ih hselector hempty' hsame, and_assoc]
        exact and_congr_left' (imp_iff_right hjoins)
      · rw [if_neg hjoins, if_neg hjoins]
        simp only [isBlock, Bool.and_self, if_true, blocksOf_cons_block]
        exact ⟨fun h => ⟨fun _ ht => absurd ht not_mem_nil, h.2⟩, fun h => ⟨fun hj => absurd hj hjoins, h.2⟩⟩
    | _ => simpa [joined, unjoined, joinsWith, isBlock] using ih hb hempty hshared

theorem blocksOf_unjoined (shared : Declarations) (ts : List Twig) :
    blocksOf (unjoined false shared ts)
      = (blocksOf ts).filter fun b => !(b.isSelector && b.declarations.sameAs shared) := by
  induction ts with
  | nil => rfl
  | cons t ts ih =>
    cases t with
    | block id hd cs =>
      rw [unjoined, blocksOf_cons_block]
      by_cases hjoins : joinsWith shared (.block id hd cs) = true
      · rw [if_pos hjoins, ih, filter_cons_of_neg]
        simpa [joinsWith] using hjoins
      · rw [if_neg hjoins, Bool.false_and, if_neg Bool.false_ne_true, blocksOf_cons_block, ih, filter_cons_of_pos]
        rw [Bool.not_eq_true', Bool.eq_false_iff]
        exact hjoins
    | _ => simpa [unjoined, joinsWith] using ih

theorem forall_joined_iff (shared : Declarations) (ts : List Twig) :
    (∀ t ∈ joined false shared ts, held t = []) ↔
      ∀ b ∈ blocksOf ts, (b.isSelector && b.declarations.sameAs shared) = true → b.childBlocks = [] := by
  induction ts with
  | nil => simp [joined]
  | cons t ts ih =>
    cases t with
    | block id hd cs =>
      have hchildren : (hd.block (cs.map child)).childBlocks = held (.block id hd cs) := rfl
      have hjoins : ((hd.block (cs.map child)).isSelector && (hd.block (cs.map child)).declarations.sameAs shared)
        = joinsWith shared (.block id hd cs) := rfl
      rw [joined, blocksOf_cons_block, forall_mem_cons, hjoins, hchildren, ← ih]
      cases joinsWith shared (.block id hd cs) <;> simp
    | _ => simpa [joined, joinsWith] using ih

/-- Of blocks with the same declarations all join the first one. -/
theorem pairwise_iff (hb : b.isSelector = true) (hempty : b.declarations.isEmpty = false)
    (hshared : b.declarations.sameAs shared = true) :
    (b :: blocksOf ts).Pairwise (fun b c => Joins b c → c.childBlocks = []) ↔
      (∀ t ∈ joined false shared ts, held t = []) ∧
        (blocksOf (unjoined false shared ts)).Pairwise fun b c => Joins b c → c.childBlocks = [] := by
  simp only [pairwise_cons, joins_iff hb hempty hshared, forall_joined_iff, blocksOf_unjoined, pairwise_filter]
  refine and_congr_right fun hall => List.Pairwise.iff_of_mem fun {x y} _ hy => ⟨fun h _ _ => h, fun h hxy => ?_⟩
  -- a block that joins one of the group joins the group itself
  by_cases hjoins : (y.isSelector && y.declarations.sameAs shared) = true
  · exact hall y hy hjoins
  · refine h ?_ (by rwa [Bool.not_eq_true', Bool.eq_false_iff]) hxy
    by_contra hx
    obtain ⟨hselector, hsame⟩ : x.isSelector = true ∧ x.declarations.sameAs shared = true := by simpa using hx
    exact hjoins ((joins_iff hselector hxy.2.2.1 hsame).mp hxy)

/-- **What is lost with a group** is what stands in the selectors that join it, and what is lost with the groups behind
it. -/
theorem mergeable_iff (hb : b.isSelector = true) (hempty : b.declarations.isEmpty = false) :
    Mergeable adjacent (b :: blocksOf ts) ↔ (∀ t ∈ joined adjacent b.declarations ts, held t = []) ∧
      Mergeable adjacent (blocksOf (unjoined adjacent b.declarations ts)) := by
  have hself : b.declarations.sameAs b.declarations = true := Declarations.sameAs_iff_perm.mpr (List.Perm.refl _)
  cases adjacent with
  | true => exact isChain_iff hb hempty hself
  | false => exact pairwise_iff hb hempty hself

/-- A block that heads no group takes nothing up. -/
theorem mergeable_cons_iff {bs : List Block} (h : ¬ (b.isSelector = true ∧ b.declarations.isEmpty = false)) :
    Mergeable adjacent (b :: bs) ↔ Mergeable adjacent bs := by
  have hvacuous (c : Block) : ¬ Joins b c := fun hjoins => h ⟨hjoins.1, hjoins.2.2.1⟩
  cases adjacent with
  | false => simp [Mergeable, hvacuous]
  | true =>
    cases bs with
    | nil => simp [Mergeable]
    | cons c bs => simp [Mergeable, hvacuous]

/-! ## One group -/

variable {d : Document} {parent group id : BlockId} {h gh hd : Head} {left mid right cs gcs : List Twig}
  {rest : List (BlockId × Block)}

/-- The head of a group that another selector has joined. -/
def joinedHead (gh hd : Head) : Head :=
  let b := (gh.block []).addSelectors hd.name (hd.block []).fragments
  ⟨b.name, b.kind, gh.declarations⟩

theorem isSelector_joinedHead (gh hd : Head) : (joinedHead gh hd).isSelector = gh.isSelector := by
  unfold joinedHead isSelector Head.block Block.addSelectors Block.isSelector
  cases gh.kind <;> rfl

/-- A selector joins a group: it is removed, and the group refers to what stood in it. -/
theorem joinGroup_becomes
    (hb : d.Bears parent h (left ++ .block group gh gcs :: (mid ++ .block id hd cs :: right)) rest) :
    d.Becomes (joinGroup d parent group (hd.block (cs.map child)) id).1 parent h
      (left ++ .block group (joinedHead gh hd) (gcs ++ cs.map wither) :: (mid ++ right)) rest ∧
    (joinGroup d parent group (hd.block (cs.map child)) id).1.Spent id := by
  rw [← cons_append, ← append_assoc] at hb
  have hremoved := hb.remove_becomes
  have hspent (x : BlockId) (hx : x ∈ idsOf cs) : (d.remove parent id).Spent x :=
    hb.spent_of_remove (mem_cons_of_mem _ (idsOf_subset_walkedOf cs hx))
  have hbears := hremoved.bears
  rw [append_assoc, cons_append] at hbears
  refine ⟨(hbears.modifyChild ?_ ?_ fun x hx => ?_).trans_leads hremoved.leads,
    (hb.spent_of_remove mem_cons_self).leads (leads_modify _ _ _)⟩
  · simp [Head.block, Block.addSelectors, joinedHead, Block.fragments]
  · simp
  · rw [lostOf_append, lostOf_wither, mem_append] at hx
    rcases hx with hx | hx
    · exact hbears.spent x (by simp [lostOf, lost, hx])
    · exact hspent x hx

/-- Gathering passes over blocks that are gone. -/
theorem gatherGroup_filter {ids : List BlockId} (p : BlockId → Bool) (hp : ∀ x ∈ ids, p x = false → d.Spent x) :
    gatherGroup adjacent parent group shared d ids = gatherGroup adjacent parent group shared d (ids.filter p) := by
  induction ids generalizing d with
  | nil => rfl
  | cons id ids ih =>
    rw [forall_mem_cons] at hp
    cases hid : p id with
    | false => rw [filter_cons_of_neg (by simp [hid]), gatherGroup, (hp.1 hid).2, ih hp.2]
    | true =>
      rw [filter_cons_of_pos hid, gatherGroup, gatherGroup]
      cases d.get? id with
      | none => exact ih hp.2
      | some b =>
        have hleads : d.Leads (joinGroup d parent group b id).1 :=
          (leads_remove d parent id).trans (leads_modify _ _ _)
        simp only [ih hp.2, ih fun x hx hpx => (hp.2 x hx hpx).leads hleads]

/-- What a group has come to when the given twigs have joined it: its head, with the children of the head. -/
structure Gathered (d : Document) (gh : Head) (gcs js : List Twig) (gh' : Head) (gcs' : List Twig) : Prop where
  selector : gh'.isSelector = true
  head : gh' = ((offspringOf js).map Prod.snd).foldl joinedHead gh
  entries : entriesOf gcs' = entriesOf gcs
  lost : lostOf gcs' = lostOf gcs ++ js.flatMap held
  spent : ∀ x ∈ idsOf js, d.Spent x

/-- **Gathering a group** takes the selectors that join it out of the block around them, and hands on to the group what
stood in them. -/
theorem gatherGroup_becomes (adjacent : Bool) (hgh : gh.isSelector = true) (hshared : gh.declarations = shared)
    (hb : d.Bears parent h (left ++ .block group gh gcs :: (mid ++ ts)) rest) (hsound : SoundOf ts) :
    ∃ gh' gcs', Strict.gatherGroup adjacent parent group d (idsOf ts)
        = some (gatherGroup adjacent parent group shared d (idsOf ts)) ∧
      d.Becomes (gatherGroup adjacent parent group shared d (idsOf ts)).1 parent h
        (left ++ .block group gh' gcs' :: (mid ++ unjoined adjacent shared ts)) rest ∧
      Gathered (gatherGroup adjacent parent group shared d (idsOf ts)).1 gh gcs (joined adjacent shared ts) gh' gcs' := by
  induction ts generalizing d gh gcs mid with
  | nil => exact ⟨gh, gcs, rfl, .refl hb, hgh, rfl, rfl, by simp [joined], fun x hx => absurd hx not_mem_nil⟩
  | cons t ts ih =>
    -- a twig that is passed over stays where it is
    have hpassed := hb
    rw [append_cons mid] at hpassed
    have hskip := ih hgh hshared hpassed hsound.2
    simp only [append_assoc, singleton_append] at hskip
    cases t with
    | lineAt rule =>
      obtain ⟨hjoined, hunjoined⟩ := joined_cons_of_skip (t := .lineAt rule) ts rfl (Bool.and_false adjacent)
      rw [hjoined, hunjoined]
      exact hskip
    | comment text =>
      obtain ⟨hjoined, hunjoined⟩ := joined_cons_of_skip (t := .comment text) ts rfl (Bool.and_false adjacent)
      rw [hjoined, hunjoined]
      exact hskip
    | gone id => exact hsound.1.elim
    | block id hd cs =>
      have hget : d.get? id = some (hd.block (cs.map child)) := hb.get?_of_mem (by simp)
      have hgroup : d.get? group = some (gh.block (gcs.map child)) := hb.get?_of_mem (by simp)
      have hjoins : (hd.isSelector && hd.declarations.sameAs shared) = joinsWith shared (.block id hd cs) := rfl
      simp only [idsOf_cons_block, Strict.gatherGroup, gatherGroup, hget, hgroup, Option.bind_eq_bind, Option.bind_some,
        isSelector_block, declarations_block, hshared, hjoins]
      cases hj : joinsWith shared (.block id hd cs) with
      | true =>
        -- the group is still there when the selector has been removed
        have hremoved : ∃ b, (d.remove parent id).get? group = some b := by
          have hb' := hb
          rw [← cons_append, ← append_assoc] at hb'
          have hmem : Twig.block group gh gcs ∈ left ++ .block group gh gcs :: mid ++ ts := by simp
          exact ⟨_, hb'.remove.get?_of_mem hmem⟩
        obtain ⟨b, hremoved⟩ := hremoved
        obtain ⟨hjoin, hspent⟩ := joinGroup_becomes hb
        obtain ⟨gh', gcs', hstrict, hbecomes, hgathered⟩ :=
          ih ((isSelector_joinedHead gh hd).trans hgh) hshared hjoin.bears hsound.2
        obtain ⟨hjoined, hunjoined⟩ := joined_cons_of_joins adjacent ts hj
        rw [hjoined, hunjoined]
        simp only [if_true, hremoved, Option.bind_some, hstrict]
        refine ⟨gh', gcs', rfl, hbecomes.trans_leads hjoin.leads, hgathered.selector, hgathered.head, ?_, ?_, ?_⟩
        · simpa using hgathered.entries
        · simpa [held] using hgathered.lost
        · rw [idsOf_cons_block, forall_mem_cons]
          exact ⟨hspent.leads hbecomes.leads, hgathered.spent⟩
      | false =>
        cases hadjacent : adjacent with
        | true =>
          obtain ⟨hjoined, hunjoined⟩ := joined_cons_of_stop ts hj (show (true && isBlock (.block id hd cs)) = true from rfl)
          rw [hjoined, hunjoined]
          exact ⟨gh, gcs, rfl, .refl hb, hgh, rfl, rfl, by simp, fun x hx => absurd hx not_mem_nil⟩
        | false =>
          obtain ⟨hjoined, hunjoined⟩ := joined_cons_of_skip ts hj (show (false && isBlock (.block id hd cs)) = false from rfl)
          rw [hjoined, hunjoined]
          rw [hadjacent] at hskip
          exact hskip

/-- A group is faithful if the selectors that join it hold no blocks. -/
theorem Gathered.faithful {gh' : Head} {gcs' : List Twig} (hgh : gh.isSelector = true)
    (hg : Gathered d gh gcs (joined adjacent shared ts) gh' gcs') (hsound : SoundOf ts) :
    Faithful (∀ t ∈ joined adjacent shared ts, held t = []) (.block group gh gcs :: ts)
      (.block group gh' gcs' :: unjoined adjacent shared ts) := by
  have hmem (t : Twig) : t ∈ ts ↔ t ∈ joined adjacent shared ts ∨ t ∈ unjoined adjacent shared ts :=
    mem_iff_joined_or_unjoined
  -- a selector that holds no blocks has no entry but its own, and loses nothing
  have hbare (t : Twig) (ht : t ∈ joined adjacent shared ts) (hheld : held t = []) :
      t.lost = [] ∧ ∀ e ∈ t.entries, e.2.isAtBlock = false := by
    have hjoins := joinsWith_of_mem_joined ht
    cases t with
    | block id hd cs =>
      obtain ⟨hentries, hlost⟩ := entriesOf_lostOf_of_idsOf hheld
      rw [Twig.lost, Twig.entries, hentries, forall_mem_singleton, isAtBlock_block, isAtBlock_eq,
        (Bool.and_eq_true_iff.mp hjoins).1]
      exact ⟨hlost, rfl⟩
    | _ => cases hjoins
  have hlost (us : List Twig) : lostOf us = [] ↔ ∀ t ∈ us, t.lost = [] := lostOf_eq_nil_iff
  refine ⟨⟨fun hat => absurd hat (not_isAtBlock hg.selector), ?_⟩, ?_, fun hnil e he hat => ?_⟩
  · rw [soundOf_iff] at hsound ⊢
    exact fun t ht => hsound t ((hmem t).mpr (.inr ht))
  · simp only [lostOf, Twig.lost, append_eq_nil_iff, hg.lost, flatMap_eq_nil_iff, hlost ts,
      hlost (unjoined adjacent shared ts)]
    constructor
    · rintro ⟨⟨hgcs, hheld⟩, hunjoined⟩
      refine ⟨⟨hgcs, fun t ht => ?_⟩, hheld⟩
      rcases (hmem t).mp ht with ht | ht
      · exact (hbare t ht (hheld t ht)).1
      · exact hunjoined t ht
    · rintro ⟨⟨hgcs, hts⟩, hheld⟩
      exact ⟨⟨hgcs, hheld⟩, fun t ht => hts t ((hmem t).mpr (.inr ht))⟩
  · simp only [lostOf, Twig.lost, append_eq_nil_iff, hg.lost, flatMap_eq_nil_iff] at hnil
    refine ⟨e, ?_, hat, rfl, fun _ hp => hp⟩
    simp only [entriesOf, Twig.entries, cons_append, mem_cons, mem_append, hg.entries] at he ⊢
    rcases he with rfl | he | he
    · exact absurd hat (not_isAtBlock hgh)
    · exact .inr (.inl he)
    · obtain ⟨t, ht, he⟩ := mem_entriesOf.mp he
      rcases (hmem t).mp ht with ht | ht
      · rw [(hbare t ht (hnil.1.2 t ht)).2 e he] at hat
        cases hat
      · exact .inr (.inr (mem_entriesOf.mpr ⟨t, ht, he⟩))

/-! ## The children of a block -/

theorem leads_gatherGroup (adjacent : Bool) (parent group : BlockId) (shared : Declarations) (d : Document)
    (ids : List BlockId) : d.Leads (gatherGroup adjacent parent group shared d ids).1 := by
  induction ids generalizing d with
  | nil => exact .refl d
  | cons id ids ih =>
    rw [gatherGroup]
    cases d.get? id with
    | none => exact ih d
    | some b =>
      simp only
      split
      · exact ((leads_remove d parent id).trans (leads_modify _ _ _)).trans (ih _)
      · split
        · exact .refl d
        · exact ih d

/-- Grouping passes over blocks that are gone. -/
theorem groupSiblings_filter {ids : List BlockId} (p : BlockId → Bool) (hp : ∀ x ∈ ids, p x = false → d.Spent x) :
    groupSiblings adjacent parent d ids = groupSiblings adjacent parent d (ids.filter p) := by
  induction ids generalizing d with
  | nil => rfl
  | cons id ids ih =>
    rw [forall_mem_cons] at hp
    cases hid : p id with
    | false =>
      have hnone : declarationsOf? d id = none := by rw [declarationsOf?, (hp.1 hid).2]
      rw [filter_cons_of_neg (by simp [hid]), groupSiblings, hnone, ih hp.2]
    | true =>
      rw [filter_cons_of_pos hid, groupSiblings, groupSiblings]
      cases declarationsOf? d id with
      | none => exact ih hp.2
      | some shared =>
        have hleads := leads_gatherGroup adjacent parent id shared d (ids.filter p)
        simp only [gatherGroup_filter p hp.2, ih fun x hx hpx => (hp.2 x hx hpx).leads hleads]

/-- The twigs that do not join a group are among the twigs, in order. -/
theorem filter_idsOf_unjoined (hnodup : (idsOf ts).Nodup) :
    (idsOf ts).filter (fun x => decide (x ∈ idsOf (unjoined adjacent shared ts))) = idsOf (unjoined adjacent shared ts) := by
  have hsub : (idsOf (unjoined adjacent shared ts)).Sublist (idsOf ts) :=
    ((unjoined_sublist adjacent shared ts).map child).filterMap Child.blockId?
  have hkept := hsub.filter fun x => decide (x ∈ idsOf (unjoined adjacent shared ts))
  rw [filter_eq_self.mpr fun x hx => decide_eq_true hx] at hkept
  refine (hkept.eq_of_length_le ((hnodup.filter _).subperm fun x hx => ?_).length_le).symm
  exact of_decide_eq_true (mem_filter.mp hx).2

theorem mem_idsOf_joined {x : BlockId} (hx : x ∈ idsOf ts) (hx' : x ∉ idsOf (unjoined adjacent shared ts)) :
    x ∈ idsOf (joined adjacent shared ts) := by
  simp only [idsOf, filterMap_map, mem_filterMap, Function.comp_apply] at hx hx' ⊢
  obtain ⟨t, ht, hid⟩ := hx
  rcases mem_iff_joined_or_unjoined.mp ht with ht | ht
  · exact ⟨t, ht, hid⟩
  · exact absurd ⟨t, ht, hid⟩ hx'

/-- The blocks that have joined a group are passed over from then on. -/
theorem groupSiblings_unjoined (parent : BlockId) (hnodup : (idsOf ts).Nodup)
    (hspent : ∀ x ∈ idsOf (joined adjacent shared ts), d.Spent x) :
    groupSiblings adjacent parent d (idsOf ts)
      = groupSiblings adjacent parent d (idsOf (unjoined adjacent shared ts)) := by
  rw [groupSiblings_filter (fun x => decide (x ∈ idsOf (unjoined adjacent shared ts))), filter_idsOf_unjoined hnodup]
  exact fun x hx hx' => hspent x (mem_idsOf_joined hx (of_decide_eq_false hx'))

/-- A block heads a group if it is a selector that declares something. -/
theorem declarationsOf?_of_mem (hb : d.Bears parent h ts rest) (hmem : .block id hd cs ∈ ts) :
    declarationsOf? d id
      = if (hd.isSelector && !hd.declarations.isEmpty) = true then some hd.declarations else none := by
  rw [declarationsOf?, hb.get?_of_mem hmem]
  rfl

/-- What a pass leaves of the at-rules among the twigs: all of them, as they are. -/
def KeepsAtRules (ts us : List Twig) : Prop :=
  ∀ id hd cs, hd.isAtBlock = true → (.block id hd cs ∈ us ↔ .block id hd cs ∈ ts)

theorem KeepsAtRules.cons (hkeeps : KeepsAtRules ts us) (t : Twig) : KeepsAtRules (t :: ts) (t :: us) := by
  intro id hd cs hat
  rw [mem_cons, mem_cons, hkeeps id hd cs hat]

/-- A round at a block, which heads a group or not. -/
theorem groupRounds_block (rounds : Nat) (hb : d.Bears parent h (left ++ .block id hd cs :: ts) rest)
    (hsound : SoundOf (left ++ .block id hd cs :: ts)) :
    Strict.groupRounds adjacent parent (rounds + 1) (idsOf left).length d =
      if hd.isSelector && !hd.declarations.isEmpty then
        (Strict.gatherGroup adjacent parent id d (idsOf ts)).bind fun gathered =>
          (Strict.groupRounds adjacent parent rounds ((idsOf left).length + 1) gathered.1).map fun more =>
            (more.1, gathered.2 ++ more.2)
      else Strict.groupRounds adjacent parent rounds ((idsOf left).length + 1) d := by
  have hget : d.get? id = some (hd.block (cs.map child)) := hb.get?_of_mem (by simp)
  have hdrop : (idsOf left ++ id :: idsOf ts).drop ((idsOf left).length + 1) = idsOf ts := by
    rw [← singleton_append, ← append_assoc]
    exact drop_left' (by simp)
  rw [Strict.groupRounds, hb.listedBlocks? hsound, idsOf_append, idsOf_cons_block]
  simp only [Option.bind_eq_bind, Option.bind_some, getElem?_append_right, Nat.le_refl, Nat.sub_self,
    getElem?_cons_zero, hget, hdrop, isSelector_block, declarations_block]
  by_cases hselector : hd.isSelector = true <;> by_cases hempty : hd.declarations.isEmpty = true <;>
    simp [hselector, hempty, Option.map_eq_bind]

/-- A group takes no at-rule away. -/
theorem keepsAtRules_group {gh' : Head} {gcs' : List Twig} (hgh : gh.isSelector = true)
    (hgh' : gh'.isSelector = true) (hkeeps : KeepsAtRules (unjoined adjacent shared ts) us) :
    KeepsAtRules (.block group gh gcs :: ts) (.block group gh' gcs' :: us) := by
  intro id hd cs hat
  have hne (h : Head) (hh : h.isSelector = true) (cs' : List Twig) : Twig.block id hd cs ≠ .block group h cs' := by
    rintro ⟨⟩
    exact not_isAtBlock hh hat
  have hjoined : Twig.block id hd cs ∉ joined adjacent shared ts := by
    intro hmem
    exact not_isAtBlock (Bool.and_eq_true_iff.mp (joinsWith_of_mem_joined hmem)).1 hat
  have hmem : Twig.block id hd cs ∈ ts ↔ _ ∨ Twig.block id hd cs ∈ unjoined adjacent shared ts :=
    mem_iff_joined_or_unjoined
  rw [mem_cons, mem_cons, hkeeps id hd cs hat, or_iff_right (hne gh' hgh' gcs'), or_iff_right (hne gh hgh gcs),
    hmem, or_iff_right hjoined]

/-- The twig heads a group: it is a selector that declares something. -/
def headsGroup : Twig → Bool
  | .block _ hd _ => hd.isSelector && !hd.declarations.isEmpty
  | _ => false

/-- What grouping makes of twigs that stand side by side. Each one that heads a group gets the selectors that join it, and
what is left behind it is grouped in its turn. -/
inductive Groups (adjacent : Bool) : List Twig → List Twig → Prop
  | nil : Groups adjacent [] []
  | pass {t : Twig} {ts us : List Twig} (ht : headsGroup t = false) (more : Groups adjacent ts us) :
      Groups adjacent (t :: ts) (t :: us)
  | gather {id : BlockId} {hd : Head} {cs cs' ts us : List Twig} (hheads : headsGroup (.block id hd cs) = true)
      (more : Groups adjacent (unjoined adjacent hd.declarations ts) us) :
      Groups adjacent (.block id hd cs :: ts)
        (.block id (((offspringOf (joined adjacent hd.declarations ts)).map Prod.snd).foldl joinedHead hd) cs' :: us)

/-- **Grouping the children of a block** loses nothing exactly where none that joins another holds blocks. -/
theorem groupSiblings_becomes (adjacent : Bool) (n : Nat) {rounds : Nat} (hn : ts.length ≤ n)
    (hb : d.Bears parent h (left ++ ts) rest) (hleft : SoundOf left) (hsound : SoundOf ts) (hrounds : (idsOf ts).length < rounds) :
    ∃ us, Strict.groupRounds adjacent parent rounds (idsOf left).length d
        = some (groupSiblings adjacent parent d (idsOf ts)) ∧
      d.Becomes (groupSiblings adjacent parent d (idsOf ts)).1 parent h (left ++ us) rest ∧
      Faithful (Mergeable adjacent (blocksOf ts)) ts us ∧ KeepsAtRules ts us ∧ Groups adjacent ts us := by
  induction n generalizing d ts left rounds with
  | zero =>
    obtain ⟨rounds, rfl⟩ : ∃ r, rounds = r + 1 := ⟨rounds - 1, by omega⟩
    obtain rfl := eq_nil_of_length_eq_zero (Nat.le_zero.mp hn)
    refine ⟨[], ?_, .refl hb, .congr (.refl trivial) (by cases adjacent <;> simp [Mergeable]), fun _ _ _ _ => Iff.rfl, .nil⟩
    rw [Strict.groupRounds, hb.listedBlocks? (soundOf_append.mpr ⟨hleft, hsound⟩)]
    simp [groupSiblings]
  | succ n ih =>
    cases ts with
    | nil => exact ih (Nat.zero_le n) hb hleft hsound hrounds
    | cons t ts =>
      have hn' : ts.length ≤ n := Nat.le_of_succ_le_succ hn
      -- a twig that heads no group stays where it is
      have hskip (r : Nat) (hr : (idsOf ts).length < r) (ht : headsGroup t = false)
          (hblocks : Mergeable adjacent (blocksOf ts) ↔ Mergeable adjacent (blocksOf (t :: ts))) :
          ∃ us, Strict.groupRounds adjacent parent r (idsOf (left ++ [t])).length d
              = some (groupSiblings adjacent parent d (idsOf ts)) ∧
            d.Becomes (groupSiblings adjacent parent d (idsOf ts)).1 parent h (left ++ us) rest ∧
            Faithful (Mergeable adjacent (blocksOf (t :: ts))) (t :: ts) us ∧ KeepsAtRules (t :: ts) us ∧
            Groups adjacent (t :: ts) us := by
        have hstay := hb
        rw [append_cons] at hstay
        obtain ⟨us, hstrict, hbecomes, hfaithful, hkeeps, hgroups⟩ :=
          ih hn' hstay (soundOf_append.mpr ⟨hleft, hsound.1, trivial⟩) hsound.2 hr
        rw [append_assoc] at hbecomes
        have hboth := (Faithful.keep hsound.1 trivial).append hfaithful
        exact ⟨t :: us, hstrict, hbecomes, hboth.congr ((and_iff_right trivial).trans hblocks), hkeeps.cons t,
          .pass ht hgroups⟩
      cases t with
      | lineAt rule => simpa using hskip rounds hrounds rfl Iff.rfl
      | comment text => simpa using hskip rounds hrounds rfl Iff.rfl
      | gone id => exact hsound.1.elim
      | block id hd cs =>
        obtain ⟨rounds, rfl⟩ : ∃ r, rounds = r + 1 := ⟨rounds - 1, by omega⟩
        have hhead := declarationsOf?_of_mem hb (mem_append_right left mem_cons_self)
        have hlength : (idsOf ts).length < rounds := Nat.lt_of_succ_lt_succ hrounds
        rw [groupRounds_block rounds hb (soundOf_append.mpr ⟨hleft, hsound⟩), idsOf_cons_block, groupSiblings, hhead]
        by_cases hheads : (hd.isSelector && !hd.declarations.isEmpty) = true
        · rw [if_pos hheads, if_pos hheads]
          obtain ⟨hselector, hempty⟩ : hd.isSelector = true ∧ hd.declarations.isEmpty = false := by simpa using hheads
          have hfront : d.Bears parent h (left ++ .block id hd cs :: ([] ++ ts)) rest := hb
          obtain ⟨gh', gcs', hstrict, hbecomes, hgathered⟩ :=
            gatherGroup_becomes adjacent hselector rfl hfront hsound.2
          have hgroup : (Twig.block id gh' gcs').Sound := fun hat =>
            absurd hat (not_isAtBlock hgathered.selector)
          have hunjoined := unjoined_sublist adjacent hd.declarations ts
          have hsound' : SoundOf (unjoined adjacent hd.declarations ts) :=
            soundOf_iff.mpr fun t ht => soundOf_iff.mp hsound.2 t (hunjoined.subset ht)
          have hbears := hbecomes.bears
          rw [nil_append, append_cons] at hbears
          have hfewer : (idsOf (unjoined adjacent hd.declarations ts)).length < rounds :=
            Nat.lt_of_le_of_lt ((hunjoined.map child).filterMap _).length_le hlength
          obtain ⟨us, hstrict', hbecomes', hfaithful, hkeeps, hgroups⟩ := ih (Nat.le_trans hunjoined.length_le hn') hbears
            (soundOf_append.mpr ⟨hleft, hgroup, trivial⟩) hsound' hfewer
          have hnodup : (idsOf ts).Nodup := by
            have hall := hb.nodup_idsOf (soundOf_append.mpr ⟨hleft, hsound⟩)
            rw [idsOf_append, idsOf_cons_block] at hall
            exact (nodup_cons.mp hall.of_append_right).2
          -- the blocks that have joined the group are gone
          have hids := groupSiblings_unjoined parent hnodup hgathered.spent
          refine ⟨.block id gh' gcs' :: us, ?_, ?_, ?_, keepsAtRules_group hselector hgathered.selector hkeeps, ?_⟩
          · simp only [idsOf_append, idsOf_cons_block, idsOf_nil, length_append, length_singleton] at hstrict'
            simp only [hstrict, Option.bind_some, hstrict', Option.map_some, hids]
          · simp only [hids]
            rw [append_assoc] at hbecomes'
            exact hbecomes'.trans_leads hbecomes.leads
          · have hrest := (Faithful.keep hgroup trivial).append hfaithful
            refine ((hgathered.faithful hselector hsound.2).trans hrest).congr ?_
            rw [true_and]
            exact (mergeable_iff (b := hd.block (cs.map child)) hselector hempty).symm
          · rw [hgathered.head]
            exact .gather hheads hgroups
        · rw [if_neg hheads, if_neg hheads]
          simpa using hskip rounds hlength (Bool.eq_false_iff.mpr hheads) (mergeable_cons_iff (by simpa using hheads)).symm

/-! ## The whole pass -/

theorem insideOf_of_keepsAtRules {P : List Block → Prop} (hkeeps : KeepsAtRules ts us) :
    InsideOf P us ↔ InsideOf P ts := by
  have hsub {ts us : List Twig} (hmem : ∀ id hd cs, hd.isAtBlock = true → .block id hd cs ∈ us → .block id hd cs ∈ ts)
      (hts : InsideOf P ts) : InsideOf P us := by
    rw [insideOf_iff] at hts ⊢
    intro t ht
    cases t with
    | block id hd cs => exact fun hat => hts _ (hmem id hd cs hat ht) hat
    | _ => trivial
  exact ⟨hsub fun id hd cs hat => (hkeeps id hd cs hat).mpr, hsub fun id hd cs hat => (hkeeps id hd cs hat).mp⟩

/-- **Grouping** never looks up a block that is gone, and groups the children of every block that it comes to. It loses
nothing exactly where no selector that joins another one holds blocks. -/
theorem groupFrom_reworks (adjacent : Bool) (depth : Nat) (hb : d.Bears parent h ts rest) (hsound : SoundOf ts)
    (hdepth : (entriesOf ts).length < depth) :
    ∃ vs, Strict.groupFrom adjacent depth d parent = some (groupFrom adjacent depth d parent) ∧
      d.Becomes (groupFrom adjacent depth d parent).1 parent h vs rest ∧
      Faithful (Throughout (Mergeable adjacent) ts) ts vs ∧
      Reworks isAtBlock (fun ts us => Groups adjacent ts us ∧ KeepsAtRules ts us) depth ts vs := by
  induction depth generalizing d parent h ts rest with
  | zero => omega
  | succ depth ih =>
    have hall : d.Bears parent h ([] ++ ts) rest := hb
    obtain ⟨us, hstrict, hbecomes, hfaithful, hkeeps, hgroups⟩ :=
      groupSiblings_becomes adjacent _ (Nat.le_refl _) hall trivial hsound (Nat.lt_succ_self _)
    rw [nil_append] at hbecomes
    let R (t : Twig) (vs : List Twig) : Prop := Faithful (t.Inside (Mergeable adjacent)) [t] vs ∧
      ∃ v, vs = [v] ∧ Into isAtBlock
        (Reworks isAtBlock (fun ts us => Groups adjacent ts us ∧ KeepsAtRules ts us) depth) t v
    suffices hpass : ∃ vs, Strict.groupFrom adjacent (depth + 1) d parent = some (groupFrom adjacent (depth + 1) d parent) ∧
        (groupSiblings adjacent parent d (idsOf ts)).1.Becomes (groupFrom adjacent (depth + 1) d parent).1 parent h vs rest ∧
        Each R us vs by
      obtain ⟨vs, hstrict, hmore, heach⟩ := hpass
      refine ⟨vs, hstrict, hmore.trans_leads hbecomes.leads, (hfaithful.trans (Faithful.of_each (heach.imp fun _ _ =>
        And.left))).congr ?_, us, ⟨hgroups, hkeeps⟩, (heach.imp fun _ _ => And.right).forall₂⟩
      rw [← insideOf_iff, insideOf_of_keepsAtRules hkeeps]
      rfl
    have hus := soundOf_iff.mp hfaithful.sound
    have hplain (t : Twig) (ht : t ∈ us) (hid : t.child.blockId? = none) : R t [t] := by
      refine ⟨.keep (hus t ht) ?_, t, rfl, .keep fun id hd cs heq => ?_⟩
      · cases t <;> trivial
      · subst heq
        cases hid
    rw [Strict.groupFrom, groupFrom, hb.listedBlocks? hsound, hb.childBlocks_parent]
    simp only [Option.bind_eq_bind, Option.bind_some]
    rw [idsOf_nil, length_nil] at hstrict
    rw [hstrict, Option.bind_some, hbecomes.bears.listedBlocks? hfaithful.sound, hbecomes.bears.childBlocks_parent]
    refine foldl_children Prod.fst _ _ R hfaithful.sound hplain ?_ _ [] hbecomes.bears
    rintro id hd cs hmem ⟨d, log⟩ left right hb
    have hget : d.get? id = some (hd.block (cs.map child)) := hb.enter.get?_parent
    simp only [hget, Option.bind_some, Option.any_some, isAtBlock_block]
    by_cases hat : hd.isAtBlock = true
    · have hlength := length_entriesOf_lt ((hkeeps id hd cs hat).mp hmem)
      obtain ⟨vs, hstrict, hinner, hvs, hreworks⟩ := ih hb.enter (hus _ hmem hat) (by omega)
      simp only [hat, if_true, hstrict, Option.bind_some]
      exact ⟨[.block id hd vs], rfl, hinner.leave hb, hvs.inside.congr (imp_iff_right hat).symm, _, rfl, .enter hat hreworks⟩
    · simp only [hat, Bool.false_eq_true, if_false]
      refine ⟨[.block id hd cs], rfl, .refl hb, .keep (hus _ hmem) fun hat' => absurd hat' hat, _, rfl, .keep ?_⟩
      rintro _ _ _ ⟨⟩
      exact Bool.eq_false_iff.mpr hat

end Selector

end Stylesheet
