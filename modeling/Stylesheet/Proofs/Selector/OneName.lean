import Stylesheet.Proofs.Document.Borne
import Stylesheet.Proofs.Selector.MergeNames

/-!
# Documents without two blocks of one name

After blocks have been merged by name, no two blocks that stand side by side have one name, wherever merging comes
(`mergeNames_merges`). That nothing is lost is said in three ways. At the top level, what is left are the first blocks of
their names, with the declarations of all of them. Below, every block that merging came to has a home, where the fonts
that were declared in it stand between the same neighbours. And comments and at-rules without a body are all still there.

A document in which no two neighbours have one name is left alone (`mergeNamesFrom_eq_self`).
-/

namespace Stylesheet

open Twig Document List

/-! ## Comments and at-rules without a body -/

namespace Twig

mutual

/-- The comments and at-rules without a body in the twig. -/
def leaves : Twig → List Child
  | block _ _ cs => leavesOf cs
  | lineAt rule => [.lineAt rule]
  | comment text => [.comment text]
  | gone _ => []

/-- The comments and at-rules without a body in the twigs. -/
def leavesOf : List Twig → List Child
  | [] => []
  | t :: ts => t.leaves ++ leavesOf ts

end

theorem leavesOf_eq_flatMap (ts : List Twig) : leavesOf ts = ts.flatMap leaves := by
  induction ts with
  | nil => rfl
  | cons t ts ih => rw [leavesOf, ih, flatMap_cons]

theorem leavesOf_append (ts us : List Twig) : leavesOf (ts ++ us) = leavesOf ts ++ leavesOf us := by
  simp [leavesOf_eq_flatMap]

end Twig

namespace Document

/-- The comments and at-rules without a body that stand in a block. -/
def leavesAt (d : Document) (id : BlockId) : List Child := (d.childrenAt id).filter (·.blockId?.isNone)

/-- The comments and at-rules without a body in a document, at any depth. -/
def leaves (d : Document) : List Child := d.walk.flatMap d.leavesAt

variable {d : Document} {h : Head} {ts : List Twig} {rest : List (BlockId × Block)}

theorem leavesOf_perm (ts : List Twig) (hholds : d.Holds (entriesOf ts)) (hlost : lostOf ts = []) :
    ((ts.map child).filter (·.blockId?.isNone) ++ (walkedOf ts).flatMap d.leavesAt).Perm (leavesOf ts) := by
  induction ts using listInduction with
  | nil => exact .refl _
  | block id hd cs ts hcs hts =>
    obtain ⟨hget, hinner, hrest⟩ := holds_cons_block.mp hholds
    rw [lostOf, lost, append_eq_nil_iff] at hlost
    have hat : d.leavesAt id = (cs.map child).filter (·.blockId?.isNone) := by
      rw [leavesAt, childrenAt, hget]
      rfl
    have hsplit := (hcs hinner hlost.1).append (hts hrest hlost.2)
    rw [leavesOf, Twig.leaves, walkedOf, walked, flatMap_append, flatMap_cons, hat, map_cons,
      filter_cons_of_neg (by simp [child, Child.blockId?])]
    refine List.Perm.trans (perm_iff_count.mpr fun c => ?_) hsplit
    simp only [count_append]
    ring
  | gone id ts _ => cases hlost
  | lineAt rule ts hts => exact (hts hholds hlost).cons (.lineAt rule)
  | comment text ts hts => exact (hts hholds hlost).cons (.comment text)

theorem Bears.leaves_perm (hb : d.Bears root h ts rest) (hlost : lostOf ts = []) : d.leaves.Perm (leavesOf ts) := by
  have hholds : d.Holds (entriesOf ts) :=
    hb.exact.holds.of_subset fun e he => mem_cons_of_mem _ (mem_append_left _ he)
  rw [Document.leaves, hb.walk_eq, flatMap_cons, leavesAt, hb.childrenAt_eq]
  exact leavesOf_perm ts hholds hlost

end Document

namespace Selector

variable {d d' : Document} {parent start id : BlockId} {h : Head} {ts us vs cs : List Twig}
  {rest rest' : List (BlockId × Block)} {depth : Nat}

/-- Merging keeps comments and at-rules without a body. -/
theorem leavesOf_perm_of_mergesNames (hm : MergesNames depth ts vs) : (leavesOf vs).Perm (leavesOf ts) := by
  refine hm.of_beside (P := fun ts us => (leavesOf us).Perm (leavesOf ts)) ?_ (fun _ => .refl _)
    (fun _ _ _ h h' => h'.trans h) ?_ fun _ _ _ _ _ hcs => ?_
  · rintro ts - rfl
    rw [leavesOf_eq_flatMap, leavesOf_eq_flatMap]
    refine perm_flatMap_condense (fun t u hlike => ?_) ts
    cases t with
    | block id hd cs =>
      cases u with
      | block id' hd' cs' => exact .of_eq (leavesOf_append cs cs')
      | _ => cases hlike
    | _ => cases hlike
  · intro ts us ts' us' hts hts'
    rw [leavesOf_append, leavesOf_append]
    exact hts.append hts'
  · simpa [leavesOf, Twig.leaves] using hcs

/-! ## Blocks side by side -/

/-- The head of the first of some blocks of one name, with the declarations of all of them. -/
def mergeAll (h : Head) (hs : List Head) : Head :=
  { h with declarations := hs.foldl (fun ds h' => ds.merge h'.declarations) h.declarations }

theorem foldl_absorbed (h : Head) (hs : List Head) : hs.foldl absorbed h = mergeAll h hs := by
  induction hs generalizing h with
  | nil => rfl
  | cons h' hs ih => rw [foldl_cons, ih]; rfl

theorem offspringOf_mergesNames (hm : MergesNames depth ts vs) :
    offspringOf vs = condenseKeyed Head.sameNamed absorbed (offspringOf ts) := by
  cases depth with
  | zero => exact hm.elim
  | succ depth =>
    obtain ⟨us, rfl, hinto⟩ := hm
    rw [offspringOf_of_into hinto]
    refine filterMap_condense (fun t u => ?_) (fun t u x y ht hu => ?_) ts
    · cases t <;> cases u <;> rfl
    · cases t with
      | block id hd cs =>
        cases u with
        | block id' hd' cs' =>
          cases ht
          cases hu
          rfl
        | _ => cases hu
      | _ => cases ht

/-- **No two blocks that stand side by side have one name**, wherever merging has come. -/
theorem pairwise_of_mergesNames (hb' : d'.Bears parent h vs rest') (hm : MergesNames depth ts vs)
    (hid : d'.Entered mergesInto parent id) : (d'.offspring id).Pairwise fun e e' => e.2.sameNamed e'.2 = false := by
  obtain ⟨depth, hp, ts, vs, rest, hbp, hm⟩ := hm.exists_reworks hb' hid
  rw [hbp.offspring_eq, offspringOf_mergesNames hm]
  exact likens_sameNamed.keyed.pairwise_condense _

/-! ## Homes -/

theorem child_absorb (t u : Twig) : (absorb t u).child = t.child := by
  cases t with
  | block id hd cs => cases u <;> rfl
  | _ => rfl

/-- Where every block is there once, those that are left stand where they stood. -/
theorem map_child_condense (hnodup : (idsOf ts).Nodup) : (condense ofOneName absorb ts).map child =
    (ts.map child).filter fun c => c.blockId?.all (· ∈ idsOf (condense ofOneName absorb ts)) := by
  refine Child.eq_filter_of_sublist (map_condense_sublist child_absorb ts) ?_ hnodup
  rw [filter_map, filter_map, filter_condense]
  intro t u hlike
  cases t with
  | block id hd cs =>
    cases u with
    | block id' hd' cs' => exact ⟨rfl, rfl, rfl⟩
    | _ => cases hlike
  | _ => cases hlike

/-- Twigs whose blocks are all there, each under an identifier of its own. -/
structure Whole (ts : List Twig) : Prop where
  lost : lostOf ts = []
  nodup : ((entriesOf ts).map Prod.fst).Nodup

theorem Whole.nodup_idsOf (hw : Whole ts) : (idsOf ts).Nodup :=
  hw.nodup.sublist (idsOf_sublist_of_soundOf (soundOf_of_lostOf ts hw.lost))

/-- What stands in a block. -/
def contents : Twig → List Twig
  | .block _ _ cs => cs
  | _ => []

theorem contents_absorb {t u : Twig} (hlike : ofOneName t u = true) : contents (absorb t u) = contents t ++ contents u := by
  cases t with
  | block id hd cs =>
    cases u with
    | block id' hd' cs' => rfl
    | _ => cases hlike
  | _ => cases hlike

theorem flatMap_contents_sublist (ts : List Twig) :
    (ts.flatMap fun t => (entriesOf (contents t)).map Prod.fst).Sublist ((entriesOf ts).map Prod.fst) := by
  induction ts with
  | nil => exact .refl _
  | cons t ts ih =>
    rw [flatMap_cons, entriesOf, map_append]
    refine List.Sublist.append ?_ ih
    cases t with
    | block id hd cs =>
      rw [entries, map_cons]
      exact sublist_cons_self _ _
    | _ => exact nil_sublist _

/-- What stands in a block of which the first of its name has become is whole. -/
theorem Whole.of_mem_condense {hd : Head} (hw : Whole ts) (hmem : .block id hd cs ∈ condense ofOneName absorb ts) :
    Whole cs := by
  have hlost : lostOf (condense ofOneName absorb ts) = [] := (condense_retains ts).lost_iff.mpr hw.lost
  refine ⟨lostOf_eq_nil_iff.mp hlost _ hmem, ?_⟩
  -- what stands in blocks is the same before and after
  let inner (t : Twig) : List BlockId := (entriesOf (contents t)).map Prod.fst
  have hperm : ((condense ofOneName absorb ts).flatMap inner).Perm (ts.flatMap inner) := by
    refine perm_flatMap_condense (fun t u hlike => .of_eq ?_) ts
    simp only [inner, contents_absorb hlike, entriesOf_append, map_append]
  have hself : ((entriesOf cs).map Prod.fst).Sublist ((condense ofOneName absorb ts).flatMap inner) :=
    sublist_flatten_of_mem (mem_map.mpr ⟨_, hmem, rfl⟩)
  exact (hperm.nodup_iff.mpr (hw.nodup.sublist (flatMap_contents_sublist ts))).sublist hself

/-- A block is in the first one of its name: what stood in it, in order. -/
def StandsIn (t u : Twig) : Prop :=
  ∀ id hd cs, t = .block id hd cs → ∃ id' hd' cs', u = .block id' hd' cs' ∧ mergesInto hd' = mergesInto hd ∧ cs.Sublist cs'

theorem exists_standsIn {t : Twig} (ht : t ∈ ts) : ∃ u ∈ condense ofOneName absorb ts, StandsIn t u := by
  refine exists_mem_condense ?_ ?_ ?_ ?_ ht
  · exact fun t id hd cs heq => ⟨id, hd, cs, heq, rfl, .refl _⟩
  · intro t u v htu huv id hd cs heq
    obtain ⟨id', hd', cs', heq', hinto, hsub⟩ := htu id hd cs heq
    obtain ⟨id'', hd'', cs'', heq'', hinto', hsub'⟩ := huv id' hd' cs' heq'
    exact ⟨id'', hd'', cs'', heq'', hinto'.trans hinto, hsub.trans hsub'⟩
  · rintro t u hlike id hd cs rfl
    cases u with
    | block id' hd' cs' => exact ⟨id, _, _, rfl, rfl, sublist_append_left cs cs'⟩
    | _ => cases hlike
  · rintro t u hlike id hd cs rfl
    cases t with
    | block id' hd' cs' =>
      obtain ⟨hfont, hname, hkind⟩ := Head.sameNamed_iff.mp hlike
      refine ⟨id', _, _, rfl, ?_, sublist_append_right cs' cs⟩
      have hinto (h : Head) : mergesInto h = (!h.isSelector && !h.isFontFace) := rfl
      have hfonts := Head.isFontFace_congr hname hkind
      rw [hinto, hinto, ← hkind, ← hfonts]
      rfl
    | _ => cases hlike

/-- The block is the home of another one in the document before: what has not been put into other blocks stands in it as
it stood in the other one, and so do the fonts that were declared there. -/
structure IsHome (d d' : Document) (s p : BlockId) : Prop where
  entered : d'.Entered mergesInto root p
  order : ((d.childrenAt s).filter fun c => c.blockId?.all (· ∈ d'.childBlocks p)).Sublist (d'.childrenAt p)
  fonts : ∀ id ∈ d.childBlocks s, ∀ b, d.get? id = some b → b.isFontFace = true →
    id ∈ d'.childBlocks p ∧ d'.get? id = some b

/-- Where merging by name made the twigs of the home from twigs among which those of the block stand. -/
theorem isHome_of_mergesNames {s p : BlockId} {hs hp : Head} (hb : d.Bears s hs cs rest) (hb' : d'.Bears p hp vs rest')
    (hentered : d'.Entered mergesInto root p) (hm : MergesNames depth us vs) (hsub : cs.Sublist us) (hw : Whole us) :
    IsHome d d' s p := by
  cases depth with
  | zero => exact hm.elim
  | succ depth =>
    obtain ⟨-, rfl, hinto⟩ := hm
    have hchildren := map_child_of_into hinto
    refine ⟨hentered, ?_, fun id hid b hget hfont => ?_⟩
    · rw [hb.childrenAt_eq, hb'.childrenAt_eq, hb'.childBlocks_parent, idsOf, hchildren, ← idsOf,
        map_child_condense hw.nodup_idsOf]
      exact (hsub.map child).filter _
    · rw [hb.childBlocks_parent] at hid
      rcases mem_idsOf hid with ⟨hd, cs', hmem⟩ | hgone
      · rw [hb.get?_of_mem hmem] at hget
        cases hget
        have hfont : hd.isFontFace = true := hfont
        have hkept : .block id hd cs' ∈ (condense ofOneName absorb us).filter (!isNamed ·) := by
          rw [filter_condense]
          · exact mem_filter.mpr ⟨hsub.subset hmem, by simp [isNamed, hfont]⟩
          · intro t u hlike
            cases t with
            | block x th tcs =>
              cases u with
              | block y uh ucs =>
                have hth : th.isFontFace = false := Head.not_isFontFace hlike
                have huh : uh.isFontFace = false := Head.not_isFontFace (Head.sameNamed_symm hlike)
                have habsorbed : (absorbed th uh).isFontFace = false := hth
                simp [isNamed, absorb, hth, huh, habsorbed]
              | _ => cases hlike
            | _ => cases hlike
        have hthere : .block id hd cs' ∈ vs := mem_of_into hinto (mem_of_mem_filter hkept) fun _ _ _ heq => by
          cases heq
          simp [mergesInto, hfont]
        exact ⟨hb'.mem_childBlocks hthere, hb'.get?_of_mem hthere⟩
      · rw [hb.get?_of_gone hgone] at hget
        cases hget

/-- **Every block that merging comes to has a home.** -/
theorem exists_isHome (hb : d.Bears root h ts rest) (hb' : d'.Bears root h vs rest') (hm : MergesNames depth ts vs)
    (hw : Whole ts) {s : BlockId} (hs : d.Entered mergesInto root s) : ∃ p, IsHome d d' s p := by
  obtain ⟨hs, cs, rest, hbs, p, hp, depth, us, vs, rest', hentered, hbp, hm, hsub, hw⟩ := hb.of_entered
    (J := fun _ _ cs => ∃ p hp depth us vs rest', d'.Entered mergesInto root p ∧ d'.Bears p hp vs rest' ∧
      MergesNames depth us vs ∧ cs.Sublist us ∧ Whole us)
    (fun _ _ ts id hd cs hJ hmem henters _ _ => by
      obtain ⟨p, hp, depth, us, vs, rest', hentered, hbp, hm, hsub, hw⟩ := hJ
      cases depth with
      | zero => exact hm.elim
      | succ depth =>
        obtain ⟨-, rfl, hinto⟩ := hm
        obtain ⟨u, hmem', hstands⟩ := exists_standsIn (hsub.subset hmem)
        obtain ⟨id', hd', cs', rfl, hsame, hsub'⟩ := hstands id hd cs rfl
        have henters' : mergesInto hd' = true := hsame.trans henters
        obtain ⟨cs'', hthere, hinner⟩ := exists_into_of_mem hinto hmem' henters'
        obtain ⟨rest'', hbears⟩ := hbp.enter_of_mem hthere
        exact ⟨id', hd', depth, cs', cs'', rest'', .child hentered (hbp.mem_childBlocks hthere) (hbp.get?_of_mem hthere)
          henters', hbears, hinner, hsub', hw.of_mem_condense hmem'⟩)
    ⟨root, h, depth, ts, vs, rest', .start, hb', hm, .refl _, hw⟩ hs
  exact ⟨p, isHome_of_mergesNames hbs hbp hentered hm hsub hw⟩

/-! ## A second time -/

/-- Of blocks that all have other names, none is put into another one. -/
theorem foldl_add_of_pairwise {ids : List BlockId} {m : Merging}
    (hnone : ((m.kept ++ ids).filterMap fun c => (m.document.get? c).map fun b => (c, b.head)).Pairwise
      fun e e' => e.2.sameNamed e'.2 = false) :
    ids.foldl (Merging.add parent) m =
      { m with kept := m.kept ++ ids.filter fun id => (m.document.get? id).any fun b => !b.isFontFace } := by
  induction ids generalizing m with
  | nil => simp
  | cons id ids ih =>
    -- the block may be left out of what is looked at
    have hrest := hnone.sublist (((sublist_cons_self id ids).append_left m.kept).filterMap _)
    rw [foldl_cons, filter_cons]
    cases hget : m.document.get? id with
    | none =>
      have hadd : m.add parent id = m := by rw [Merging.add, hget]
      rw [hadd, ih hrest]
      rfl
    | some b =>
      by_cases hfont : b.isFontFace = true
      · have hadd : m.add parent id = m := by rw [Merging.add, hget]; exact if_pos hfont
        rw [hadd, ih hrest]
        simp [hfont]
      · have hfind : m.kept.find? (fun other => (m.document.get? other).any (sameName b)) = none := by
          rw [find?_eq_none]
          intro x hx hsame
          cases hc : m.document.get? x with
          | none => simp [hc] at hsame
          | some c =>
            rw [hc, Option.any_some] at hsame
            obtain ⟨hname, hkind⟩ : b.name = c.name ∧ b.isSelector = c.isSelector := by simpa [sameName] using hsame
            have hlike : c.head.sameNamed b.head = true :=
              Head.sameNamed_symm (Head.sameNamed_iff.mpr ⟨Bool.eq_false_iff.mpr hfont, hname, hkind⟩)
            rw [filterMap_append, pairwise_append] at hnone
            have hunlike := hnone.2.2 (x, c.head) (mem_filterMap.mpr ⟨x, hx, by rw [hc]; rfl⟩) (id, b.head)
              (mem_filterMap.mpr ⟨id, mem_cons_self, by rw [hget]; rfl⟩)
            exact Bool.false_ne_true (hunlike.symm.trans hlike)
        have hadd : m.add parent id = { m with kept := m.kept ++ [id] } := by
          rw [Merging.add, hget]
          simp only [if_neg hfont, hfind]
        rw [append_cons] at hnone
        rw [hadd, ih hnone]
        simp [hfont]

/-- **Where no two neighbours have one name**, there is nothing to merge. -/
theorem mergeNamesFrom_eq_self
    (hnone : ∀ p, d.Entered mergesInto start p → (d.offspring p).Pairwise fun e e' => e.2.sameNamed e'.2 = false)
    (fuel : Nat) (hparent : d.Entered mergesInto start parent) :
    (mergeNamesFrom fuel d parent).document = d ∧ (mergeNamesFrom fuel d parent).merged = [] ∧
      (mergeNamesFrom fuel d parent).log = [] := by
  induction fuel generalizing parent with
  | zero => exact ⟨rfl, rfl, rfl⟩
  | succ fuel ih =>
    have hfirst : (d.childBlocks parent).foldl (Merging.add parent) { document := d } = _ :=
      foldl_add_of_pairwise (hnone parent hparent)
    rw [mergeNamesFrom, hfirst, foldl_of_fixed]
    · exact ⟨rfl, rfl, rfl⟩
    · intro id hid
      obtain ⟨hid, hnamed⟩ := mem_filter.mp hid
      split
      · next hat =>
        cases hget : d.get? id with
        | none => simp [hget] at hat
        | some b =>
          simp only [hget, Option.any_some] at hat hnamed
          have henters : mergesInto b.head = true := Bool.and_eq_true_iff.mpr ⟨hat, hnamed⟩
          obtain ⟨hsame, hmerged, hlog⟩ := ih (hparent.child hid hget henters)
          simp only [hsame, hmerged, hlog, append_nil]
      · rfl

/-- **Merging by name is complete and loses nothing.** Afterwards no two blocks that stand side by side have one name and
kind, but for fonts. At the top level the first blocks of their names are left, in order and with the declarations of all
blocks of the name. Every block that merging came to has a home in which its fonts stand where they stood, comments and
at-rules without a body are all there, and merging once more does nothing. -/
theorem mergeNames_merges {d : Document} (hwell : d.WellFormed) :
    let d' := (mergeNames d root).1
    d'.WellFormed ∧
      (∀ p, d'.Entered mergesInto root p → (d'.offspring p).Pairwise fun e e' => e.2.sameNamed e'.2 = false) ∧
      Condenses Head.sameNamed mergeAll (d.offspring root) (d'.offspring root) ∧
      (∃ home : BlockId → BlockId, home root = root ∧ ∀ s, d.Entered mergesInto root s → IsHome d d' s (home s)) ∧
      d'.leaves.Perm d.leaves ∧
      mergeNames d' root = (d', [], []) := by
  intro d'
  obtain ⟨h, ts, rest, hb, hlost⟩ := hwell.exists_bears
  obtain ⟨vs, -, hbecomes, hm, -⟩ :=
    mergeNamesFrom_reworks d.maxDepth hb (soundOf_of_lostOf ts hlost) (Nat.lt_succ_of_lt hb.length_lt)
  have hb' : d'.Bears root h vs rest := hbecomes.bears
  have hlost' : lostOf vs = [] := (retains_of_mergesNames hm).lost_iff.mpr hlost
  have hw : Whole ts := ⟨hlost, by
    have hnodup := (List.nodup_cons.mp hb.exact.nodup).2
    rw [List.map_append] at hnodup
    exact hnodup.of_append_left⟩
  have hnone (p : BlockId) (hp : d'.Entered mergesInto root p) := pairwise_of_mergesNames hb' hm hp
  refine ⟨hb'.wellFormed hlost', hnone, ?_, ?_, ?_, ?_⟩
  · rw [hb.offspring_eq, hb'.offspring_eq, offspringOf_mergesNames hm]
    exact likens_sameNamed.condenses foldl_absorbed (hw.nodup_idsOf.sublist (map_fst_offspringOf_sublist ts))
  · have hroot : IsHome d d' root root := isHome_of_mergesNames hb hb' .start hm (.refl _) hw
    classical
    refine ⟨fun s => if hs : s ≠ root ∧ d.Entered mergesInto root s then (exists_isHome hb hb' hm hw hs.2).choose else root,
      by simp, fun s hs => ?_⟩
    by_cases hne : s = root
    · simpa [hne] using hroot
    · simpa [hne, hs] using (exists_isHome hb hb' hm hw hs).choose_spec
  · exact (hb'.leaves_perm hlost').trans ((leavesOf_perm_of_mergesNames hm).trans (hb.leaves_perm hlost).symm)
  · obtain ⟨hsame, hmerged, hlog⟩ := mergeNamesFrom_eq_self hnone d'.maxDepth .start
    rw [mergeNames, hmerged, hlog, hsame]

/-- A medium twice, with a selector in each, two fonts between them, and a comment and a font in the second one. -/
def fontsAndMedia : Document :=
  let font : Block := { name := "@font-face", kind := .atBlock }
  let selector : Block := { name := "a", kind := .selector ["a"] }
  let d := (empty.addBlock root { name := "@media tv", kind := .atBlock }).addBlock ⟨1⟩ selector
  let d := ((d.addBlock root font).addBlock root font).addBlock root { name := "@media tv", kind := .atBlock }
  ((d.pushChild ⟨5⟩ (.comment "")).addBlock ⟨5⟩ font).addBlock ⟨5⟩ selector

/-- The second medium and its selector are put into the first ones, and the fonts stay. -/
theorem mergeNames_merges_fontsAndMedia :
    fontsAndMedia.WellFormed ∧ (mergeNames fontsAndMedia root).1.blockCount + 2 = fontsAndMedia.blockCount ∧
      Condenses Head.sameNamed mergeAll (fontsAndMedia.offspring root) ((mergeNames fontsAndMedia root).1.offspring root) ∧
      (∃ p, IsHome fontsAndMedia (mergeNames fontsAndMedia root).1 ⟨5⟩ p) ∧
      (mergeNames fontsAndMedia root).1.leaves.Perm fontsAndMedia.leaves ∧
      mergeNames (mergeNames fontsAndMedia root).1 root = ((mergeNames fontsAndMedia root).1, [], []) := by
  have hwell : fontsAndMedia.WellFormed := by decide +kernel
  have hentered : fontsAndMedia.Entered mergesInto root ⟨5⟩ := .child .start (by decide +kernel) rfl (by decide +kernel)
  obtain ⟨-, -, hcondenses, ⟨home, -, hhome⟩, hleaves, hagain⟩ := mergeNames_merges hwell
  exact ⟨hwell, by decide +kernel, hcondenses, ⟨home ⟨5⟩, hhome _ hentered⟩, hleaves, hagain⟩

end Selector

end Stylesheet
