import Stylesheet.Proofs.Document.Borne
import Stylesheet.Proofs.Selector.Separate

/-!
# Documents without groups of selectors

Taking groups apart leaves the rules of every block as they are: the same fragments in the same order, with the same
declarations. Each group is replaced, where it stands, by blocks of one fragment each, and everything else stays between
the same neighbours (`separate_separates`).

A document without groups is left alone (`separateFrom_eq_self`).
-/

namespace Stylesheet

open Twig Document

/-- A child with blocks in its place, if it is a block. -/
def Child.inPieces (pieces : BlockId → List BlockId) : Child → List Child
  | .block id => (pieces id).map .block
  | c => [c]

namespace Selector

open List

variable {d d' : Document} {parent start id p : BlockId} {hd : Head} {ts us vs cs : List Twig} {t : Twig}
  {bs : List (Head × List Twig)}

/-! ## One group -/

/-- The blocks of a group: the first one holds what the group held. -/
theorem separated_of_fragments {b : Block} {f : String} {fs : List String} (hb : b.fragments = f :: fs) :
    separated b = { name := f, kind := .selector [f], declarations := b.declarations, children := b.children } ::
      fs.map fun g => { name := g, kind := .selector [g], declarations := b.declarations } := by
  rw [separated, hb, zipIdx_cons, map_cons]
  congr 1
  suffices hothers : ∀ n ≠ 0, (fs.zipIdx n).map _ = _ from hothers (0 + 1) (Nat.succ_ne_zero 0)
  clear hb
  induction fs with
  | nil => exact fun _ _ => rfl
  | cons g fs ih =>
    intro n hn
    rw [zipIdx_cons, map_cons, map_cons, ih (n + 1) (Nat.succ_ne_zero n)]
    simp only [hn, if_false]

theorem map_fst_separatedHeads (hd : Head) (cs : List Twig) :
    (separatedHeads hd cs).map Prod.fst = hd.fragments.map fun f => ⟨f, .selector [f], hd.declarations⟩ := by
  conv_rhs => rw [← zipIdx_map_fst 0 hd.fragments, map_map]
  rw [separatedHeads, map_map]
  rfl

/-- Blocks that are given by their heads and what stands in them. -/
theorem offspringOf_of_forall₂ (hus : List.Forall₂ (fun b t => ∃ id, t = .block id b.1 b.2) bs us) :
    (offspringOf us).map Prod.snd = bs.map Prod.fst ∧ us.map child = (idsOf us).map .block := by
  induction hus with
  | nil => exact ⟨rfl, rfl⟩
  | cons head _ ih =>
    obtain ⟨id, rfl⟩ := head
    rw [offspringOf_cons_block, map_cons, map_cons, ih.1, idsOf_cons_block, map_cons, map_cons, ih.2]
    exact ⟨rfl, rfl⟩

/-- **Taking a group apart** keeps its rules. -/
theorem flatMap_rules_of_separates (hs : Separates t us) :
    (offspringOf us).flatMap (fun e => e.2.rules) = (offspringOf [t]).flatMap fun e => e.2.rules := by
  cases hs with
  | keep => rfl
  | @apart id hd cs us hmany hus =>
    have hheads := (offspringOf_of_forall₂ hus).1
    rw [map_fst_separatedHeads] at hheads
    calc
      (offspringOf us).flatMap (fun e => e.2.rules) = ((offspringOf us).map Prod.snd).flatMap Head.rules := by
        rw [flatMap_map]
      _ = hd.fragments.flatMap fun f => [(f, hd.declarations)] := by
        rw [hheads, flatMap_map]
        rfl
      _ = (offspringOf [.block id hd cs]).flatMap fun e => e.2.rules := by
        rw [offspringOf_cons_block, offspringOf_nil, flatMap_singleton, Head.rules, map_eq_flatMap]

theorem fragments_of_separates (hs : Separates t us) : ∀ e ∈ offspringOf us, e.2.fragments.length ≤ 1 := by
  intro e he
  cases hs with
  | keep ht =>
    obtain ⟨cs, hmem⟩ := mem_offspringOf.mp he
    exact ht _ _ _ (mem_singleton.mp hmem).symm
  | apart _ hus =>
    have hhead := mem_map_of_mem (f := Prod.snd) he
    rw [(offspringOf_of_forall₂ hus).1, map_fst_separatedHeads] at hhead
    obtain ⟨f, -, hf⟩ := mem_map.mp hhead
    rw [← hf]
    exact Nat.le_refl 1

theorem map_child_of_separates (hs : Separates t us) : us.map child = t.child.inPieces fun _ => idsOf us := by
  cases hs with
  | keep => cases t <;> rfl
  | apart _ hus => exact (offspringOf_of_forall₂ hus).2

/-! ## All children of a block -/

section

variable (heach : Each Separates ts us)
include heach

theorem flatMap_rules_of_each :
    (offspringOf us).flatMap (fun e => e.2.rules) = (offspringOf ts).flatMap fun e => e.2.rules := by
  induction heach with
  | nil => rfl
  | @cons t us ts vs head _ ih =>
    have hsplit (ts us : List Twig) : offspringOf (ts ++ us) = offspringOf ts ++ offspringOf us := filterMap_append
    rw [hsplit, flatMap_append, ih, flatMap_rules_of_separates head, ← flatMap_append, ← hsplit, singleton_append]

theorem fragments_of_each : ∀ e ∈ offspringOf us, e.2.fragments.length ≤ 1 := by
  induction heach with
  | nil => exact fun e he => absurd he not_mem_nil
  | cons head _ ih =>
    intro e he
    rw [offspringOf, filterMap_append, mem_append] at he
    exact he.elim (fragments_of_separates head e) (ih e)

/-- At-rules are left where they are. -/
theorem mem_iff_of_each (id : BlockId) (hd : Head) (cs : List Twig)
    (hat : hd.isAtBlock = true) : .block id hd cs ∈ us ↔ .block id hd cs ∈ ts := by
  induction heach with
  | nil => exact Iff.rfl
  | @cons t us ts vs head _ ih =>
    rw [mem_append, mem_cons, ih]
    refine or_congr_left ⟨fun hmem => (head.eq_of_isAtBlock hmem hat).symm, ?_⟩
    rintro rfl
    cases head with
    | keep => exact mem_singleton_self _
    | apart hmany _ =>
      rw [Head.fragments_of_isAtBlock hat] at hmany
      exact absurd hmany (Nat.not_lt_zero 1)

/-- **Each block has its pieces**, and they stand where it stood. -/
theorem exists_pieces (hnodup : (idsOf ts).Nodup) :
    ∃ pieces : BlockId → List BlockId, us.map child = (ts.map child).flatMap (Child.inPieces pieces) ∧
      ∀ id hd cs, .block id hd cs ∈ ts → ∃ vs ⊆ us, Separates (.block id hd cs) vs ∧ pieces id = idsOf vs := by
  induction heach with
  | nil => exact ⟨fun _ => [], rfl, fun _ _ _ hmem => absurd hmem not_mem_nil⟩
  | @cons t us ts vs head _ ih =>
    have hids : idsOf (t :: ts) = idsOf [t] ++ idsOf ts := by rw [← idsOf_append, singleton_append]
    rw [hids, nodup_append] at hnodup
    obtain ⟨-, hnodup, hdisjoint⟩ := hnodup
    obtain ⟨pieces, hplaces, hpieces⟩ := ih hnodup
    have hother {x : BlockId} (hx : x ∈ idsOf ts) : x ∉ idsOf [t] := fun hx' => hdisjoint x hx' x hx rfl
    refine ⟨fun x => if x ∈ idsOf [t] then idsOf us else pieces x, ?_, fun id hd cs hmem => ?_⟩
    · rw [map_append, map_cons, flatMap_cons, hplaces, map_child_of_separates head]
      congr 1
      · cases t <;> simp [child, Child.inPieces]
      · refine flatMap_congr fun c hc => ?_
        cases c with
        | block x =>
          have hx := hother (mem_filterMap.mpr ⟨_, hc, rfl⟩)
          simp [Child.inPieces, hx]
        | lineAt rule => rfl
        | comment text => rfl
    · rcases mem_cons.mp hmem with rfl | hmem
      · exact ⟨us, subset_append_left _ _, head, if_pos (by simp)⟩
      · obtain ⟨ws, hws, hs, heq⟩ := hpieces id hd cs hmem
        have hx := hother (mem_filterMap.mpr ⟨_, mem_map_of_mem hmem, rfl⟩)
        exact ⟨ws, subset_append_of_subset_right _ hws, hs, (if_neg hx).trans heq⟩

/-! ## A second time -/

end

/-- **Where no selector has more than one fragment**, there is nothing to take apart. -/
theorem separateFrom_eq_self
    (hsingle : ∀ p, d.Reached start p → ∀ e ∈ d.offspring p, e.2.fragments.length ≤ 1) (depth : Nat)
    (hparent : d.Reached start parent) : separateFrom depth d parent = d := by
  induction depth generalizing parent with
  | zero => rfl
  | succ depth ih =>
    rw [separateFrom]
    refine foldl_of_fixed fun id hid => ?_
    cases hget : d.get? id with
    | none => rfl
    | some b =>
      by_cases hat : b.isAtBlock = true
      · exact (if_pos hat).trans (ih (hparent.child hid hget hat))
      · have hmem : (id, b.head) ∈ d.offspring parent := mem_filterMap.mpr ⟨id, hid, by rw [hget]; rfl⟩
        have hone : b.fragments.length ≤ 1 := hsingle parent hparent _ hmem
        simp only [hat, Bool.false_eq_true, if_false, separateChild, hone, if_true]

/-! ## Documents -/

/-- What taking groups apart makes of a block that it comes to. -/
abbrev SeparatedAt (d d' : Document) (p : BlockId) (ts us : List Twig) : Prop :=
  d.ReworkedAt Head.isAtBlock (Each Separates) d' p ts us

/-- Taking groups apart comes to the blocks that at-rules lead to. -/
theorem exists_separatedAt (hwell : d.WellFormed) (p : BlockId) :
    ((separate d root).Reached root p ↔ d.Reached root p) ∧
      (d.Reached root p → ∃ ts us, SeparatedAt d (separate d root) p ts us) := by
  obtain ⟨h, ts, rest, hb, hlost⟩ := hwell.exists_bears
  obtain ⟨vs, -, hbecomes, -, hr⟩ :=
    separateFrom_reworks d.maxDepth hb (soundOf_of_lostOf ts hlost) (Nat.lt_succ_of_lt hb.length_lt)
  have hb' : (separate d root).Bears root h vs rest := hbecomes.bears
  have hkeeps := fun ts us (heach : Each Separates ts us) => mem_iff_of_each heach
  rw [reached_iff_entered, reached_iff_entered]
  exact ⟨hr.entered_iff hkeeps hb hlost hb', hr.exists_reworkedAt hkeeps hb hlost hb'⟩

/-- The blocks of a group are there as they were put there. -/
theorem map_get?_of_separates (hs : SeparatedAt d d' p ts us) (hvs : vs ⊆ us)
    (hblocks : List.Forall₂ (fun b t => ∃ id, t = .block id b.1 b.2) bs vs) (hat : ∀ b ∈ bs, b.1.isAtBlock = false) :
    (idsOf vs).map d'.get? = bs.map fun b => some (b.1.block (b.2.map child)) := by
  induction hblocks with
  | nil => rfl
  | cons head _ ih =>
    obtain ⟨id, rfl⟩ := head
    obtain ⟨hmem, hvs⟩ := cons_subset.mp hvs
    rw [forall_mem_cons] at hat
    rw [idsOf_cons_block, map_cons, map_cons, ih hvs hat.2, hs.get?_eq' hmem hat.1]

/-- What has become of a block: if it is no group it is still there, and only at-rules may hold something else. Otherwise
there is a block for each fragment, and the first one holds what the group held. -/
structure InPieces (d' : Document) (id : BlockId) (b : Block) (pieces : List BlockId) : Prop where
  single : b.fragments.length ≤ 1 →
    pieces = [id] ∧ ∃ b', d'.get? id = some b' ∧ b'.head = b.head ∧ (b.isSelector = true → b' = b)
  group : ∀ first second others, b.fragments = first :: second :: others →
    pieces.map d'.get? =
      some { name := first, kind := .selector [first], declarations := b.declarations, children := b.children } ::
        (second :: others).map fun f => some { name := f, kind := .selector [f], declarations := b.declarations }

theorem inPieces_of_separates (hs : SeparatedAt d d' p ts us) (hvs : vs ⊆ us) (hsep : Separates (.block id hd cs) vs) :
    InPieces d' id (hd.block (cs.map child)) (idsOf vs) := by
  cases hsep with
  | keep ht =>
    have hone : hd.fragments.length ≤ 1 := ht id hd cs rfl
    refine ⟨fun _ => ⟨rfl, ?_⟩, fun first second others heq => ?_⟩
    · have hmem := hvs (mem_singleton_self _)
      obtain ⟨b', hget, hhead⟩ := hs.exists_get?' hmem
      refine ⟨b', hget, hhead, fun hselector => ?_⟩
      rw [hs.get?_eq' hmem (by simpa [Head.isAtBlock_eq] using hselector)] at hget
      exact (Option.some.inj hget).symm
    · rw [Head.fragments_block] at heq
      simp [heq] at hone
  | apart hmany hus =>
    refine ⟨fun hone => absurd hmany (Nat.not_lt_of_le hone), fun first second others heq => ?_⟩
    have hget := map_get?_of_separates hs hvs hus fun b hb => (entriesOf_of_mem_separatedHeads hb).1
    have hseparated := congrArg (map some) (separated_eq hd cs)
    rw [map_map] at hseparated
    rw [hget, ← Function.comp_def some, ← hseparated, separated_of_fragments heq, map_cons, map_map]
    rfl

/-- **Taking groups apart happens in place.** In the root and in every at-rule that at-rules lead to, the rules are the
same, in their order, and no selector has more than one fragment. Where a group stood there are its blocks, side by side,
and the first one holds what the group held. Everything else stays where it is. A second time there is nothing to do. -/
theorem separate_separates {d : Document} (hwell : d.WellFormed) :
    let d' := separate d root
    (∀ p, (d'.Reached root p ↔ d.Reached root p) ∧ (d.Reached root p →
      d'.rules p = d.rules p ∧
      (∀ e ∈ d'.offspring p, e.2.fragments.length ≤ 1) ∧
      ∃ pieces : BlockId → List BlockId,
        d'.childrenAt p = (d.childrenAt p).flatMap (Child.inPieces pieces) ∧
        ∀ id ∈ d.childBlocks p, ∀ b, d.get? id = some b → InPieces d' id b (pieces id))) ∧
      separate d' root = d' := by
  intro d'
  have hsingle (p : BlockId) (hp : d'.Reached root p) : ∀ e ∈ d'.offspring p, e.2.fragments.length ≤ 1 := by
    obtain ⟨hreached, hat⟩ := exists_separatedAt hwell p
    obtain ⟨ts, us, hs⟩ := hat (hreached.mp hp)
    rw [hs.offspring_eq']
    exact fragments_of_each hs.beside
  refine ⟨fun p => ?_, separateFrom_eq_self hsingle d'.maxDepth .start⟩
  obtain ⟨hreached, hat⟩ := exists_separatedAt hwell p
  refine ⟨hreached, fun hp => ?_⟩
  obtain ⟨ts, us, hs⟩ := hat hp
  obtain ⟨pieces, hplaces, hpieces⟩ := exists_pieces hs.beside hs.nodup
  refine ⟨?_, hsingle p (hreached.mpr hp), pieces, ?_, fun id hid b hget => ?_⟩
  · rw [rules, rules, hs.offspring_eq, hs.offspring_eq', flatMap_rules_of_each hs.beside]
  · rw [hs.childrenAt_eq, hs.childrenAt_eq', hplaces]
  · obtain ⟨hd, cs, hmem, rfl⟩ := hs.exists_of_get? hid hget
    obtain ⟨vs, hvs, hsep, heq⟩ := hpieces id hd cs hmem
    rw [heq]
    exact inPieces_of_separates hs hvs hsep

/-- A group with a comment in it between two selectors, a comment behind it, and a medium with a group. -/
def groupsInPlace : Document :=
  let selector (name : String) (fragments : List String) : Block :=
    { name, kind := .selector fragments, declarations := .ofList [("top", { text := "0" })] }
  let d := (empty.addBlock root (selector "a" ["a"])).addBlock root (selector "b,c" ["b", "c"])
  let d := ((d.pushChild ⟨2⟩ (.comment "in")).pushChild root (.comment "behind")).addBlock root (selector "d" ["d"])
  (d.addBlock root { name := "@media tv", kind := .atBlock }).addBlock ⟨4⟩ (selector "e,f" ["e", "f"])

/-- There is one block more in the root and one more in the medium, and the rules stay in their order. -/
theorem separate_separates_groupsInPlace :
    groupsInPlace.WellFormed ∧ groupsInPlace.Reached root ⟨4⟩ ∧
      ((separate groupsInPlace root).childBlocks root).length = (groupsInPlace.childBlocks root).length + 1 ∧
      (groupsInPlace.rules root).map Prod.fst = ["a", "b", "c", "d"] ∧
      (separate groupsInPlace root).rules root = groupsInPlace.rules root ∧
      (separate groupsInPlace root).rules ⟨4⟩ = groupsInPlace.rules ⟨4⟩ ∧
      separate (separate groupsInPlace root) root = separate groupsInPlace root := by
  have hwell : groupsInPlace.WellFormed := by decide +kernel
  have hmedium : groupsInPlace.Reached root ⟨4⟩ := .child .start (by decide +kernel) rfl rfl
  obtain ⟨hplaces, htwice⟩ := separate_separates hwell
  exact ⟨hwell, hmedium, by decide +kernel, by decide +kernel, ((hplaces root).2 .start).1, ((hplaces ⟨4⟩).2 hmedium).1,
    htwice⟩

end Selector

end Stylesheet
