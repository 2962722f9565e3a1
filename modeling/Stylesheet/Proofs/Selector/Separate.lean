import Stylesheet.Selector.Separate
import Stylesheet.Proofs.Document.Rework
import Stylesheet.Proofs.Selector.Faithful

/-!
# Taking groups of selectors apart

A group is removed before the blocks of its fragments take its place, and the first of them takes over what stood in
it. Blocks that stood in it are gone by then. So taking groups apart loses nothing exactly where no group holds blocks
(`Separable`).
-/

namespace Stylesheet

open Twig Document List Head

namespace Strict

open Selector

/-- Takes groups apart, and fails if a block that is looked up is gone or the descent is cut short. -/
def separateFrom : Nat → Document → BlockId → Option Document
  | 0, _, _ => none
  | depth + 1, d, parent => do
    (← d.listedBlocks? parent).foldlM (fun d id => do
      let b ← d.get? id
      if b.isAtBlock then separateFrom depth d id
      else if b.fragments.length ≤ 1 then return d
      else
        let _ ← d.get? parent
        return separateChild d parent id b) d

end Strict

/-! ## New blocks between the children of a block -/

namespace Document

variable {d : Document} {parent : BlockId} {h hd : Head} {left right cs : List Twig} {rest : List (BlockId × Block)}

/-- Blocks side by side, each without entries of its own. -/
theorem Bears.insertBlocks {bs : List (Head × List Twig)} (hb : d.Bears parent h (left ++ right) rest)
    (hentries : ∀ b ∈ bs, entriesOf b.2 = []) (hspent : ∀ b ∈ bs, ∀ x ∈ lostOf b.2, d.Spent x) :
    ∃ us, d.Becomes (Selector.insertBlocks parent left.length d (bs.map fun b => b.1.block (b.2.map child))) parent h
      (left ++ (us ++ right)) rest ∧ List.Forall₂ (fun b t => ∃ id, t = .block id b.1 b.2) bs us := by
  induction bs generalizing d left with
  | nil => exact ⟨[], .refl hb, .nil⟩
  | cons b bs ih =>
    rw [forall_mem_cons] at hentries hspent
    have hfirst : d.Becomes (d.insertBlockAt parent left.length (b.1.block (b.2.map child))) parent h
        (left ++ .block d.fresh b.1 b.2 :: right) rest := hb.insertBlockAt hentries.1 hspent.1
    have hmore := hfirst.bears
    rw [append_cons] at hmore
    obtain ⟨us, hbecomes, hus⟩ := ih hmore hentries.2 fun b hb x hx => (hspent.2 b hb x hx).leads hfirst.leads
    refine ⟨.block d.fresh b.1 b.2 :: us, ?_, .cons ⟨_, rfl⟩ hus⟩
    have hfinal := hbecomes.trans_leads hfirst.leads
    simpa [Selector.insertBlocks] using hfinal

/-- The place of a block among the children of the one around it. -/
theorem Bears.findIdx?_children {id : BlockId} (hb : d.Bears parent h (left ++ .block id hd cs :: right) rest) :
    ((d.get? parent).map (·.children)).bind (·.findIdx? (· == .block id)) = some left.length := by
  have hleft : (left.map child).findIdx? (· == .block id) = none := by
    rw [findIdx?_eq_none_iff]
    intro c hc
    rw [beq_eq_false_iff_ne]
    rintro rfl
    exact hb.notMem_idsOf.1 (mem_filterMap.mpr ⟨_, hc, rfl⟩)
  rw [hb.get?_parent]
  simp [findIdx?_append, hleft, findIdx?_cons, child]

end Document

namespace Selector

variable {d : Document} {parent id : BlockId} {h hd : Head} {ts left right cs : List Twig}
  {rest : List (BlockId × Block)}

/-- No group of selectors holds blocks. -/
def Separable (bs : List Block) : Prop :=
  ∀ b ∈ bs, b.isSelector = true → 1 < b.fragments.length → b.childBlocks = []

/-- The heads of the blocks that a group is taken apart into, with what stands in them. -/
def separatedHeads (hd : Head) (cs : List Twig) : List (Head × List Twig) :=
  (hd.block []).fragments.zipIdx.map fun (fragment, i) =>
    (⟨fragment, .selector [fragment], hd.declarations⟩, if i = 0 then cs.map wither else [])

theorem separated_eq (hd : Head) (cs : List Twig) :
    separated (hd.block (cs.map child)) = (separatedHeads hd cs).map fun b => b.1.block (b.2.map child) := by
  unfold separated separatedHeads
  rw [map_map]
  refine map_congr_left fun x _ => ?_
  simp only [Function.comp_apply]
  split <;> simp [Head.block]

theorem entriesOf_of_mem_separatedHeads {b : Head × List Twig} (hb : b ∈ separatedHeads hd cs) :
    b.1.isAtBlock = false ∧ entriesOf b.2 = [] ∧ lostOf b.2 ⊆ idsOf cs := by
  obtain ⟨⟨fragment, i⟩, -, rfl⟩ := mem_map.mp hb
  refine ⟨rfl, ?_⟩
  simp only
  split
  · simp
  · simp [entriesOf, lostOf]

/-- What is lost from the blocks of a group is what stood in it. -/
theorem flatMap_lostOf_separatedHeads (hfragments : 1 < (hd.block []).fragments.length) :
    (separatedHeads hd cs).flatMap (fun b => lostOf b.2) = idsOf cs := by
  obtain ⟨fragment, fragments, hcons⟩ := exists_cons_of_length_pos (Nat.lt_trans Nat.zero_lt_one hfragments)
  have htail : (fragments.zipIdx 1).flatMap (fun x => lostOf (if x.2 = 0 then cs.map wither else [])) = [] := by
    rw [flatMap_eq_nil_iff]
    intro x hx
    have hle := (mk_mem_zipIdx_iff_le_and_getElem?_sub.mp hx).1
    rw [if_neg (by omega)]
    rfl
  rw [separatedHeads, hcons, zipIdx_cons, flatMap_map, flatMap_cons]
  simp only [if_true, lostOf_wither, htail, append_nil]

/-- The blocks of a group refer to what stood in it, and are no at-rules. -/
theorem forall₂_separatedHeads {bs : List (Head × List Twig)} {us : List Twig}
    (h : List.Forall₂ (fun b t => ∃ id, t = .block id b.1 b.2) bs us) (hat : ∀ b ∈ bs, b.1.isAtBlock = false) :
    SoundOf us ∧ lostOf us = bs.flatMap fun b => lostOf b.2 := by
  induction h with
  | nil => exact ⟨trivial, rfl⟩
  | cons head _ ih =>
    obtain ⟨id, rfl⟩ := head
    rw [forall_mem_cons] at hat
    obtain ⟨hsound, hlost⟩ := ih hat.2
    refine ⟨⟨fun h => absurd h (by rw [hat.1]; exact Bool.false_ne_true), hsound⟩, ?_⟩
    rw [lostOf, lost, flatMap_cons, hlost]

/-- What stands in the place of a twig when groups have been taken apart: a block for each fragment of a group, and
otherwise the twig itself. -/
inductive Separates : Twig → List Twig → Prop
  | keep {t : Twig} (ht : ∀ id hd cs, t = .block id hd cs → hd.fragments.length ≤ 1) : Separates t [t]
  | apart {id : BlockId} {hd : Head} {cs us : List Twig} (hmany : 1 < hd.fragments.length)
      (hus : List.Forall₂ (fun b t => ∃ id, t = .block id b.1 b.2) (separatedHeads hd cs) us) :
      Separates (.block id hd cs) us

/-- The blocks of a group are no at-rules, and an at-rule stands for itself. -/
theorem Separates.eq_of_isAtBlock {t : Twig} {us : List Twig} (hs : Separates t us) (hmem : .block id hd cs ∈ us)
    (hat : hd.isAtBlock = true) : t = .block id hd cs := by
  cases hs with
  | keep => exact (mem_singleton.mp hmem).symm
  | apart _ hus =>
    obtain ⟨b, hb, x, heq⟩ := exists_of_mem_right hus hmem
    cases heq
    rw [(entriesOf_of_mem_separatedHeads hb).1] at hat
    cases hat

theorem separateChild_becomes (hb : d.Bears parent h (left ++ .block id hd cs :: right) rest)
    (hat : hd.isAtBlock = false) (hfragments : 1 < (hd.block []).fragments.length) :
    ∃ us, d.Becomes (separateChild d parent id (hd.block (cs.map child))) parent h (left ++ (us ++ right)) rest ∧
      Faithful (idsOf cs = []) [.block id hd cs] us ∧ Separates (.block id hd cs) us := by
  have hheads (b : Head × List Twig) (hb : b ∈ separatedHeads hd cs) := entriesOf_of_mem_separatedHeads hb
  obtain ⟨us, hbecomes, hus⟩ := hb.remove.insertBlocks (fun b hb => (hheads b hb).2.1) fun b hmem x hx =>
    hb.spent_of_remove (mem_cons_of_mem _ (idsOf_subset_walkedOf cs ((hheads b hmem).2.2 hx)))
  obtain ⟨hsound, hlost⟩ := forall₂_separatedHeads hus fun b hb => (hheads b hb).1
  rw [flatMap_lostOf_separatedHeads hfragments] at hlost
  refine ⟨us, ?_, ⟨hsound, ?_, fun hnil e he hat' => ?_⟩, .apart hfragments hus⟩
  · unfold separateChild
    have hmany : ¬ (hd.block (cs.map child)).fragments.length ≤ 1 := Nat.not_le_of_lt hfragments
    rw [if_neg hmany, hb.findIdx?_children, separated_eq]
    exact hbecomes.trans_leads (leads_remove d parent id)
  · rw [hlost]
    refine ⟨fun hids => ⟨?_, hids⟩, And.right⟩
    simpa [lostOf, lost] using (entriesOf_lostOf_of_idsOf hids).2
  · -- there was nothing but the selector
    rw [hlost] at hnil
    simp only [entriesOf, entries, (entriesOf_lostOf_of_idsOf hnil).1, append_nil, mem_singleton] at he
    subst he
    exact absurd hat' (by rw [isAtBlock_block, hat]; exact Bool.false_ne_true)

/-! ## The whole pass -/

/-- What has to hold for a child of a block so that nothing in it is lost. -/
def Twig.separable : Twig → Prop
  | .block _ hd cs =>
    if hd.isAtBlock then Throughout Separable cs else 1 < (hd.block []).fragments.length → idsOf cs = []
  | _ => True

theorem forall_separable_iff : (∀ t ∈ ts, Twig.separable t) ↔ Throughout Separable ts := by
  rw [Throughout, insideOf_iff]
  induction ts with
  | nil => simp [Separable]
  | cons t ts ih =>
    have hcons (b : Block) (bs : List Block) : Separable (b :: bs) ↔
        (b.isSelector = true → 1 < b.fragments.length → b.childBlocks = []) ∧ Separable bs := by
      simp only [Separable, forall_mem_cons]
    rw [forall_mem_cons, forall_mem_cons, ih]
    cases t with
    | block id hd cs =>
      have hchildren : (hd.block (cs.map child)).childBlocks = idsOf cs := rfl
      rw [blocksOf_cons_block, hcons, hchildren, isSelector_block, Twig.separable, Inside, Throughout, isAtBlock_eq]
      cases hd.isSelector <;> simp <;> tauto
    | _ => simp [Twig.separable, Inside]

/-- **Taking groups apart** never looks up a block that is gone, and takes apart the groups in every block that it comes
to. It loses nothing exactly where no group holds blocks. -/
theorem separateFrom_reworks (depth : Nat) (hb : d.Bears parent h ts rest) (hsound : SoundOf ts)
    (hdepth : (entriesOf ts).length < depth) :
    ∃ vs, Strict.separateFrom depth d parent = some (separateFrom depth d parent) ∧
      d.Becomes (separateFrom depth d parent) parent h vs rest ∧ Faithful (Throughout Separable ts) ts vs ∧
      Reworks isAtBlock (Each Separates) depth ts vs := by
  induction depth generalizing d parent h ts rest with
  | zero => omega
  | succ depth ih =>
    let R (t : Twig) (vs : List Twig) : Prop := Faithful (Twig.separable t) [t] vs ∧
      ∃ us, Separates t us ∧ List.Forall₂ (Into isAtBlock (Reworks isAtBlock (Each Separates) depth)) us vs
    suffices hpass : ∃ vs, Strict.separateFrom (depth + 1) d parent = some (separateFrom (depth + 1) d parent) ∧
        d.Becomes (separateFrom (depth + 1) d parent) parent h vs rest ∧ Each R ts vs by
      obtain ⟨vs, hstrict, hbecomes, heach⟩ := hpass
      exact ⟨vs, hstrict, hbecomes, (Faithful.of_each (heach.imp fun _ _ => And.left)).congr forall_separable_iff,
        (heach.imp fun _ _ => And.right).exists_forall₂⟩
    have hts := soundOf_iff.mp hsound
    have hplain (t : Twig) (ht : t ∈ ts) (hid : t.child.blockId? = none) : R t [t] := by
      cases t with
      | lineAt rule => exact ⟨.keep (hts _ ht) trivial, _, .keep nofun, forall₂_into_self (by simp)⟩
      | comment text => exact ⟨.keep (hts _ ht) trivial, _, .keep nofun, forall₂_into_self (by simp)⟩
      | block id hd cs => cases hid
      | gone id => cases hid
    rw [Strict.separateFrom, separateFrom, hb.listedBlocks? hsound, hb.childBlocks_parent]
    refine foldl_children id _ _ R hsound hplain ?_ d [] hb
    rintro id hd cs hmem d left right hb
    change d.Bears parent h (left ++ .block id hd cs :: right) rest at hb
    have hget : d.get? id = some (hd.block (cs.map child)) := hb.enter.get?_parent
    have hfragments : (hd.block (cs.map child)).fragments = hd.fragments := rfl
    simp only [id_eq, hget, Option.bind_eq_bind, Option.bind_some, isAtBlock_block]
    by_cases hat : hd.isAtBlock = true
    · have hlength := length_entriesOf_lt hmem
      obtain ⟨vs, hstrict, hinner, hvs, hreworks⟩ := ih hb.enter (hts _ hmem hat) (by omega)
      simp only [hat, if_true]
      refine ⟨[.block id hd vs], hstrict, hinner.leave hb, hvs.inside.congr (by simp [Twig.separable, hat]),
        [.block id hd cs], .keep ?_, .cons (.enter hat hreworks) .nil⟩
      rintro _ _ _ ⟨⟩
      rw [fragments_of_isAtBlock hat]
      exact Nat.zero_le 1
    · have hplain' {us : List Twig} (hus : Separates (.block id hd cs) us) :
          List.Forall₂ (Into isAtBlock (Reworks isAtBlock (Each Separates) depth)) us us :=
        forall₂_into_self fun x hx cx hmem => Bool.eq_false_iff.mpr fun hat' => by
          cases hus.eq_of_isAtBlock hmem hat'
          exact hat hat'
      simp only [hat, Bool.false_eq_true, if_false]
      by_cases hone : (hd.block (cs.map child)).fragments.length ≤ 1
      · rw [if_pos hone, separateChild, if_pos hone]
        have hself : Separates (.block id hd cs) [.block id hd cs] := .keep fun _ _ _ heq => by cases heq; exact hone
        refine ⟨[.block id hd cs], rfl, .refl hb, .keep (hts _ hmem) ?_, _, hself, hplain' hself⟩
        simp only [Twig.separable, hat, Bool.false_eq_true, if_false]
        exact fun hmany => absurd hone (Nat.not_le_of_lt hmany)
      · obtain ⟨us, hbecomes, hus, hseparates⟩ := separateChild_becomes hb (by simpa using hat) (Nat.lt_of_not_le hone)
        rw [if_neg hone, hb.get?_parent]
        refine ⟨us, rfl, hbecomes, hus.congr ?_, us, hseparates, hplain' hseparates⟩
        simp only [Twig.separable, hat, Bool.false_eq_true, if_false]
        exact (imp_iff_right (Nat.lt_of_not_le hone)).symm

end Selector

end Stylesheet
