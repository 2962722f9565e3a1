import Stylesheet.Proofs.Document.Borne
import Stylesheet.Proofs.Selector.Condense
import Stylesheet.Proofs.Selector.Group
import Mathlib.Data.List.SplitBy
import Mathlib.Data.List.TakeWhile

/-!
# Documents with grouped selectors

Grouping is about rules: a rule is one fragment of a selector with the declarations of the selector. Whether two selectors
declare the same is decided without looking at the order of declarations, so a rule is looked at as a map from properties
to values (`asMap`).

Where all selectors are grouped, no two of them declare the same any more, and no rule is lost (`groupEqual_groups`). Where
only neighbours are grouped, the rules stay in their order, too. But a group declares in the order of its first selector.
Where others of the group declare in another order, a shorthand may come to stand in front of a property that it resets
(`groupEqual_adjacent_keeps`).
-/

namespace Stylesheet

open Twig Document List

namespace Declarations

/-- Declarations are the same if they give the same value to every property. -/
theorem sameAs_iff_get?_eq {d e : Declarations} : d.sameAs e = true ↔ d.get? = e.get? := by
  rw [sameAs_iff_perm, perm_ext_iff_of_nodup d.distinct.of_map e.distinct.of_map]
  simp only [Prod.forall, ← get?_eq_some_iff]
  constructor
  · exact fun h => funext fun property => Option.ext fun value => h property value
  · intro h property value
    rw [h]

/-- The properties, in the order in which they are declared. -/
def properties (d : Declarations) : List String := d.entries.map Prod.fst

/-- Properties of which one is a shorthand of the other are declared in the same order. -/
def SameOverriding (d e : Declarations) : Prop :=
  ∀ p q, Text.startsWith q (p ++ "-") = true ∨ Text.startsWith p (q ++ "-") = true →
    ([p, q].Sublist d.properties ↔ [p, q].Sublist e.properties)

end Declarations

/-- The rule, with the order of its declarations forgotten. -/
def asMap (rule : String × Declarations) : String × (String → Option Value) := (rule.1, rule.2.get?)

namespace Head

/-- The heads are those of selectors that are grouped: both declare the same, and not nothing. -/
def sameDeclared (h h' : Head) : Bool :=
  h.isSelector && !h.declarations.isEmpty && (h'.isSelector && h'.declarations.sameAs h.declarations)

variable {h h' : Head}

theorem sameDeclared_iff : h.sameDeclared h' = true ↔ h.isSelector = true ∧ h'.isSelector = true ∧
    h.declarations.isEmpty = false ∧ h.declarations.get? = h'.declarations.get? := by
  rw [sameDeclared, Bool.and_eq_true, Bool.and_eq_true, Bool.and_eq_true, Bool.not_eq_true',
    Declarations.sameAs_iff_get?_eq, eq_comm (a := h.declarations.get?)]
  tauto

end Head

namespace Selector

variable {cs : List Twig} {id : BlockId} {hd : Head}
variable {ts us : List Twig}

/-! ## Groups -/

/-- The head of the first of some selectors, with the names and fragments of all of them. -/
def joinAll (h : Head) (hs : List Head) : Head :=
  { h with
    name := Text.joinWith "," (h.name :: hs.map (·.name))
    kind :=
      match h.kind with
      | .selector fragments => .selector (fragments ++ hs.flatMap (·.fragments))
      | .atBlock => .atBlock }

theorem foldl_joinedHead (h : Head) (hs : List Head) : hs.foldl joinedHead h = joinAll h hs := by
  have hname (a b : String) (l : List String) :
      Text.joinWith "," ((a ++ "," ++ b) :: l) = Text.joinWith "," (a :: b :: l) := by
    cases l with
    | nil => rfl
    | cons c l => simp only [Text.joinWith, String.append_assoc]
  induction hs generalizing h with
  | nil =>
    obtain ⟨name, kind, declarations⟩ := h
    cases kind <;> simp [joinAll, Text.joinWith]
  | cons h' hs ih =>
    rw [foldl_cons, ih]
    obtain ⟨name, kind, declarations⟩ := h
    simp only [joinAll, joinedHead, Block.addSelectors, Head.block, map_cons, hname, flatMap_cons]
    cases kind <;> simp [Head.fragments, Block.fragments, Head.block]

theorem fragments_joinAll {h : Head} (hselector : h.isSelector = true) (hs : List Head) :
    (joinAll h hs).fragments = h.fragments ++ hs.flatMap (·.fragments) := by
  obtain ⟨name, kind, declarations⟩ := h
  cases kind with
  | selector fragments => rfl
  | atBlock => cases hselector

theorem likens_sameDeclared : Likens Head.sameDeclared joinedHead where
  symm h h' := by
    simp only [Head.sameDeclared_iff]
    rintro ⟨hselector, hselector', hempty, hget⟩
    refine ⟨hselector', hselector, ?_, hget.symm⟩
    rw [← Declarations.isEmpty_eq_of_sameAs (Declarations.sameAs_iff_get?_eq.mpr hget), hempty]
  trans h h' h'' := by
    simp only [Head.sameDeclared_iff]
    rintro ⟨hselector, -, hempty, hget⟩ ⟨-, hselector'', -, hget'⟩
    exact ⟨hselector, hselector'', hempty, hget.trans hget'⟩
  like_take h h' h'' := by
    rw [Head.sameDeclared, isSelector_joinedHead]
    rfl

/-- A block that heads no group declares the same as no other. -/
theorem sameDeclared_eq_false (ht : headsGroup (.block id hd cs) = false)
    (hd' : Head) : hd.sameDeclared hd' = false := by
  have hheads : (hd.isSelector && !hd.declarations.isEmpty) = false := ht
  rw [Head.sameDeclared, hheads, Bool.false_and]

/-- The block is a selector with the given declarations. -/
def joinsAs (shared : Declarations) (e : BlockId × Head) : Bool := e.2.isSelector && e.2.declarations.sameAs shared

/-- A block that heads a group is joined by those that declare the same. -/
theorem sameDeclared_eq (ht : headsGroup (.block id hd cs) = true)
    (e : BlockId × Head) : hd.sameDeclared e.2 = joinsAs hd.declarations e := by
  have hheads : (hd.isSelector && !hd.declarations.isEmpty) = true := ht
  rw [Head.sameDeclared, hheads, Bool.true_and, joinsAs]

/-! ## All selectors -/

theorem offspringOf_joined (shared : Declarations) (ts : List Twig) :
    offspringOf (joined false shared ts) = (offspringOf ts).filter (joinsAs shared) ∧
      offspringOf (unjoined false shared ts) = (offspringOf ts).filter fun e => !joinsAs shared e := by
  induction ts with
  | nil => exact ⟨rfl, rfl⟩
  | cons t ts ih =>
    cases t with
    | block id hd cs =>
      cases hjoins : joinsAs shared (id, hd) with
      | true =>
        obtain ⟨hjoined, hunjoined⟩ := joined_cons_of_joins (t := .block id hd cs) false ts hjoins
        simp [hjoined, hunjoined, ih, hjoins]
      | false =>
        obtain ⟨hjoined, hunjoined⟩ := joined_cons_of_skip (t := .block id hd cs) ts hjoins (Bool.false_and _)
        simp [hjoined, hunjoined, ih, hjoins]
    | _ => simpa [joined, unjoined, joinsWith] using ih

/-- **Grouping all selectors** takes those together that declare the same. -/
theorem offspringOf_of_groups (hg : Groups false ts us) :
    offspringOf us = condenseKeyed Head.sameDeclared joinedHead (offspringOf ts) := by
  induction hg with
  | nil => rfl
  | @pass t ts us ht _ ih =>
    cases t with
    | block id hd cs =>
      rw [offspringOf_cons_block, offspringOf_cons_block, condenseKeyed, likens_sameDeclared.keyed.condense_cons]
      simp only [sameDeclared_eq_false ht, Bool.not_false, filter_true, filter_false, foldl_nil]
      rw [ih, condenseKeyed]
    | _ => exact ih
  | @gather id hd cs cs' ts us hheads _ ih =>
    obtain ⟨hjoined, hunjoined⟩ := offspringOf_joined hd.declarations ts
    rw [offspringOf_cons_block, offspringOf_cons_block, condenseKeyed, likens_sameDeclared.keyed.condense_cons, foldl_keyed,
      ih, hjoined, hunjoined]
    simp only [sameDeclared_eq hheads, condenseKeyed]

/-! ## Neighbours -/

theorem offspringOf_joined_adjacent (shared : Declarations) (ts : List Twig) :
    offspringOf (joined true shared ts) = (offspringOf ts).takeWhile (joinsAs shared) ∧
      offspringOf (unjoined true shared ts) = (offspringOf ts).dropWhile (joinsAs shared) := by
  induction ts with
  | nil => exact ⟨rfl, rfl⟩
  | cons t ts ih =>
    cases t with
    | block id hd cs =>
      cases hjoins : joinsAs shared (id, hd) with
      | true =>
        obtain ⟨hjoined, hunjoined⟩ := joined_cons_of_joins (t := .block id hd cs) true ts hjoins
        simp [hjoined, hunjoined, ih, hjoins]
      | false =>
        obtain ⟨hjoined, hunjoined⟩ := joined_cons_of_stop (t := .block id hd cs) ts hjoins (Bool.and_self true)
        simp [hjoined, hunjoined, hjoins]
    | _ => simpa [joined, unjoined, joinsWith, isBlock] using ih

/-- The blocks are neighbours that declare the same. -/
def declareAlike (e e' : BlockId × Head) : Bool := e.2.sameDeclared e'.2

/-- The declarations of the first of some blocks. -/
def leading : List (BlockId × Head) → Declarations
  | [] => .empty
  | e :: _ => e.2.declarations

/-- The rules of some blocks that form a group: each fragment with its own declarations and with those of the group. -/
def runRules (run : List (BlockId × Head)) : List (String × Declarations × Declarations) :=
  run.flatMap fun e => e.2.fragments.map fun fragment => (fragment, e.2.declarations, leading run)

/-- A run of neighbours that declare the same, up to where it ends. -/
theorem splitBy_declareAlike (hheads : headsGroup (.block id hd cs) = true)
    (l : List (BlockId × Head)) : ((id, hd) :: l).splitBy declareAlike =
      ((id, hd) :: l.takeWhile (joinsAs hd.declarations)) :: (l.dropWhile (joinsAs hd.declarations)).splitBy declareAlike := by
  have hlike (e : BlockId × Head) (he : e ∈ l.takeWhile (joinsAs hd.declarations)) : hd.sameDeclared e.2 = true :=
    (sameDeclared_eq hheads e).trans (mem_takeWhile_imp he)
  -- all of the run are like its first one, and so like each other
  have hall : ((id, hd) :: l.takeWhile (joinsAs hd.declarations)).IsChain fun e e' => declareAlike e e' = true := by
    refine List.Pairwise.isChain (pairwise_cons.mpr ⟨hlike, ?_⟩)
    exact pairwise_of_forall_mem_list fun e he e' he' =>
      likens_sameDeclared.trans _ _ _ (likens_sameDeclared.symm _ _ (hlike e he)) (hlike e' he')
  have hends : ∀ x ∈ ((id, hd) :: l.takeWhile (joinsAs hd.declarations)).getLast?,
      ∀ y ∈ (l.dropWhile (joinsAs hd.declarations)).head?, declareAlike x y = false := by
    intro x hx y hy
    have hy : joinsAs hd.declarations y = false := by
      have hstop := head?_dropWhile_not (joinsAs hd.declarations) l
      rwa [Option.mem_def.mp hy] at hstop
    rw [← sameDeclared_eq hheads] at hy
    rcases mem_cons.mp (mem_of_getLast? hx) with rfl | hx
    · exact hy
    · exact likens_sameDeclared.like_eq_false (hlike x hx) hy
  conv_lhs => rw [← takeWhile_append_dropWhile (p := joinsAs hd.declarations) (l := l), ← cons_append]
  rw [splitBy_append hends, splitBy_of_isChain (cons_ne_nil _ _) hall, singleton_append]

/-- **Grouping neighbours** gives all rules of a run the declarations of its first selector. -/
theorem rules_of_groups (hg : Groups true ts us) : (offspringOf us).flatMap (fun e => e.2.rules) =
    (((offspringOf ts).splitBy declareAlike).flatMap runRules).map fun r => (r.1, r.2.2) := by
  induction hg with
  | nil => rfl
  | @pass t ts us ht _ ih =>
    cases t with
    | block id hd cs =>
      have halone : ((id, hd) :: offspringOf ts).splitBy declareAlike = [(id, hd)] :: (offspringOf ts).splitBy declareAlike := by
        rw [← singleton_append, splitBy_append, splitBy_of_isChain (cons_ne_nil _ _) (.singleton _)]
        · rfl
        · intro x hx y _
          cases hx
          exact sameDeclared_eq_false ht y.2
      rw [offspringOf_cons_block, offspringOf_cons_block, halone, flatMap_cons, ih, flatMap_cons, map_append]
      simp [runRules, leading, Head.rules]
    | _ => exact ih
  | @gather id hd cs cs' ts us hheads _ ih =>
    obtain ⟨hjoined, hunjoined⟩ := offspringOf_joined_adjacent hd.declarations ts
    have hselector : hd.isSelector = true := (Bool.and_eq_true_iff.mp hheads).1
    rw [offspringOf_cons_block, offspringOf_cons_block, splitBy_declareAlike hheads, flatMap_cons, ih, hjoined, hunjoined,
      flatMap_cons, map_append, foldl_joinedHead]
    congr 1
    simp only [Head.rules, fragments_joinAll hselector]
    simp [runRules, leading, joinAll, map_flatMap, flatMap_map, Function.comp_def]

/-! ## Whole documents -/

variable {adjacent : Bool} {d : Document}

theorem filter_map_child_unjoined (adjacent : Bool) (shared : Declarations) (ts : List Twig) :
    ((unjoined adjacent shared ts).map child).filter (·.blockId?.isNone) = (ts.map child).filter (·.blockId?.isNone) := by
  induction ts with
  | nil => rfl
  | cons t ts ih =>
    rw [unjoined]
    split
    · next hjoins =>
      cases t with
      | block id hd cs => exact ih
      | _ => cases hjoins
    · split
      · rfl
      · rw [map_cons, map_cons, filter_cons, filter_cons, ih]

/-- Nothing but selectors that have joined a group is taken away. -/
theorem map_child_of_groups (hg : Groups adjacent ts us) : (us.map child).Sublist (ts.map child) ∧
    (us.map child).filter (·.blockId?.isNone) = (ts.map child).filter (·.blockId?.isNone) := by
  induction hg with
  | nil => exact ⟨.refl _, rfl⟩
  | @pass t ts us _ _ ih =>
    rw [map_cons, map_cons, filter_cons, filter_cons, ih.2]
    exact ⟨ih.1.cons_cons _, rfl⟩
  | @gather id hd cs cs' ts us _ _ ih =>
    refine ⟨(ih.1.trans ((unjoined_sublist adjacent hd.declarations ts).map child)).cons_cons _, ?_⟩
    exact ih.2.trans (filter_map_child_unjoined adjacent hd.declarations ts)

/-- What grouping makes of a block that it comes to. -/
abbrev GroupedAt (adjacent : Bool) (d d' : Document) (p : BlockId) (ts us : List Twig) : Prop :=
  d.ReworkedAt Head.isAtBlock (fun ts us => Groups adjacent ts us ∧ KeepsAtRules ts us) d' p ts us

/-- **Grouping comes to the blocks that at-rules lead to**, and groups what stands in each of them. -/
theorem exists_groupedAt (adjacent : Bool) (hwell : d.WellFormed) (p : BlockId) :
    ((groupEqual adjacent d root).1.Reached root p ↔ d.Reached root p) ∧
      (d.Reached root p → ∃ ts us, GroupedAt adjacent d (groupEqual adjacent d root).1 p ts us) := by
  obtain ⟨h, ts, rest, hb, hlost⟩ := hwell.exists_bears
  obtain ⟨vs, -, hbecomes, -, hr⟩ :=
    groupFrom_reworks adjacent d.maxDepth hb (soundOf_of_lostOf ts hlost) (Nat.lt_succ_of_lt hb.length_lt)
  have hb' : (groupEqual adjacent d root).1.Bears root h vs rest := hbecomes.bears
  have hkeeps : ∀ ts us, Groups adjacent ts us ∧ KeepsAtRules ts us → KeepsAtRules ts us := fun _ _ => And.right
  rw [reached_iff_entered, reached_iff_entered]
  exact ⟨hr.entered_iff hkeeps hb hlost hb', hr.exists_reworkedAt hkeeps hb hlost hb'⟩

theorem childrenAt_eq_of_groupedAt {d' : Document} {p : BlockId} (hg : GroupedAt adjacent d d' p ts us) :
    d'.childrenAt p = (d.childrenAt p).filter fun c => c.blockId?.all (· ∈ d'.childBlocks p) := by
  obtain ⟨hsub, hplain⟩ := map_child_of_groups hg.beside.1
  rw [hg.childrenAt_eq', hg.childrenAt_eq, hg.childBlocks_eq']
  exact Child.eq_filter_of_sublist hsub hplain hg.nodup

/-- **Grouping all selectors is complete and loses no rule.** In the root and in every at-rule that at-rules lead to, the
rules are the same up to their order. No two selectors that declare something declare the same. What is left stands in its
order, and the first of the selectors that declared the same has the names and the fragments of all of them. -/
theorem groupEqual_groups {d : Document} (hwell : d.WellFormed) (p : BlockId) :
    let d' := (groupEqual false d root).1
    (d'.Reached root p ↔ d.Reached root p) ∧ (d.Reached root p →
      ((d'.rules p).map asMap).Perm ((d.rules p).map asMap) ∧
      (d'.offspring p).Pairwise (fun e e' => e.2.isSelector = true → e'.2.isSelector = true →
        e.2.declarations.isEmpty = false → e.2.declarations.get? ≠ e'.2.declarations.get?) ∧
      d'.childrenAt p = (d.childrenAt p).filter (fun c => c.blockId?.all (· ∈ d'.childBlocks p)) ∧
      Condenses Head.sameDeclared joinAll (d.offspring p) (d'.offspring p)) := by
  intro d'
  obtain ⟨hreached, hgrouped⟩ := exists_groupedAt false hwell p
  refine ⟨hreached, fun hp => ?_⟩
  obtain ⟨ts, us, hg⟩ := hgrouped hp
  have hcondensed : d'.offspring p = condenseKeyed Head.sameDeclared joinedHead (d.offspring p) := by
    rw [hg.offspring_eq', hg.offspring_eq, offspringOf_of_groups hg.beside.1]
  have hnodup : ((d.offspring p).map Prod.fst).Nodup := by
    rw [hg.offspring_eq]
    exact hg.nodup.sublist (map_fst_offspringOf_sublist ts)
  refine ⟨?_, ?_, childrenAt_eq_of_groupedAt hg, ?_⟩
  · rw [rules, rules, List.map_flatMap, List.map_flatMap, hcondensed]
    refine perm_flatMap_condense (fun e e' hlike => .of_eq ?_) _
    obtain ⟨hselector, -, -, hget⟩ := Head.sameDeclared_iff.mp hlike
    have hjoined : joinedHead e.2 e'.2 = joinAll e.2 [e'.2] := foldl_joinedHead e.2 [e'.2]
    simp only [Head.rules, hjoined, fragments_joinAll hselector]
    simp [asMap, joinAll, hget]
  · rw [hcondensed]
    refine (likens_sameDeclared.keyed.pairwise_condense _).imp fun {e e'} hunlike hselector hselector' hempty hget => ?_
    exact Bool.false_ne_true (hunlike.symm.trans (Head.sameDeclared_iff.mpr ⟨hselector, hselector', hempty, hget⟩))
  · rw [hcondensed]
    exact likens_sameDeclared.condenses foldl_joinedHead hnodup

/-- Two selectors that declare the same, with one that declares something else and a comment between them, and a medium
with two that declare the same. -/
def equalApart : Document :=
  let selector (name : String) (text : String) : Block :=
    { name, kind := .selector [name], declarations := .ofList [("top", { text }), ("left", { text })] }
  let d := ((empty.addBlock root (selector "a" "0")).addBlock root (selector "b" "1")).pushChild root (.comment "")
  let d := (d.addBlock root (selector "c" "0")).addBlock root { name := "@media tv", kind := .atBlock }
  (d.addBlock ⟨4⟩ (selector "d" "0")).addBlock ⟨4⟩ (selector "e" "0")

/-- Grouping leaves two selectors in the root and one in the medium. -/
theorem groupEqual_groups_equalApart :
    equalApart.WellFormed ∧ equalApart.Reached root root ∧ equalApart.Reached root ⟨4⟩ ∧
      ((groupEqual false equalApart root).1.childBlocks root).length = 3 ∧
      (((groupEqual false equalApart root).1.rules root).map asMap).Perm ((equalApart.rules root).map asMap) ∧
      Condenses Head.sameDeclared joinAll (equalApart.offspring ⟨4⟩) ((groupEqual false equalApart root).1.offspring ⟨4⟩) := by
  have hwell : equalApart.WellFormed := by decide +kernel
  have hmedium : equalApart.Reached root ⟨4⟩ := .child .start (by decide +kernel) rfl rfl
  obtain ⟨hrules, -⟩ := (groupEqual_groups hwell root).2 .start
  obtain ⟨-, -, -, hcondenses⟩ := (groupEqual_groups hwell ⟨4⟩).2 hmedium
  exact ⟨hwell, .start, hmedium, by decide +kernel, hrules, hcondenses⟩

/-! ## The order of declarations -/

/-- The first of a run declares the same as all of them. -/
theorem get?_leading {l run : List (BlockId × Head)} {e : BlockId × Head} (hrun : run ∈ l.splitBy declareAlike)
    (he : e ∈ run) : e.2.declarations.get? = (leading run).get? := by
  have htrans : IsTrans (BlockId × Head) fun e e' => declareAlike e e' = true :=
    ⟨fun _ _ _ => likens_sameDeclared.trans _ _ _⟩
  have hall := isChain_iff_pairwise.mp (isChain_of_mem_splitBy hrun)
  cases run with
  | nil => cases he
  | cons first run =>
    rcases mem_cons.mp he with rfl | he
    · rfl
    · exact (Head.sameDeclared_iff.mp ((pairwise_cons.mp hall).1 e he)).2.2.2.symm

theorem flatMap_rules_eq (l : List (BlockId × Head)) : l.flatMap (fun e => e.2.rules) =
    ((l.splitBy declareAlike).flatMap runRules).map fun r => (r.1, r.2.1) := by
  have hruns : l.flatMap (fun e => e.2.rules)
      = (l.splitBy declareAlike).flatMap fun run => run.flatMap fun e => e.2.rules := by
    conv_lhs => rw [← flatten_splitBy declareAlike l, ← flatMap_id, flatMap_assoc]
    rfl
  rw [hruns]
  simp [map_flatMap, runRules, Head.rules, Function.comp_def]

theorem mem_runRules {run : List (BlockId × Head)} {r : String × Declarations × Declarations} : r ∈ runRules run ↔
    ∃ e ∈ run, r.1 ∈ e.2.fragments ∧ r.2 = (e.2.declarations, leading run) := by
  obtain ⟨fragment, own, shared⟩ := r
  simp [runRules, eq_comm]

/-- **Grouping neighbours keeps the order of rules.** It keeps the order in which properties override each other exactly
where, in each run of neighbours that declare the same, all selectors declare such properties in the order of the
first. -/
theorem groupEqual_adjacent_keeps {d : Document} (hwell : d.WellFormed) {p : BlockId} (hp : d.Reached root p) :
    let d' := (groupEqual true d root).1
    (d'.rules p).map asMap = (d.rules p).map asMap ∧
      (List.Forall₂ (fun rule rule' => rule.2.SameOverriding rule'.2) (d.rules p) (d'.rules p) ↔
        ∀ run ∈ (d.offspring p).splitBy declareAlike, ∀ e ∈ run, e.2.fragments ≠ [] →
          e.2.declarations.SameOverriding (leading run)) := by
  intro d'
  obtain ⟨ts, us, hg⟩ := (exists_groupedAt true hwell p).2 hp
  -- before and after, the rules are those of the runs, with other declarations
  have hbefore : d.rules p = _ := flatMap_rules_eq (d.offspring p)
  have hafter : d'.rules p = (((d.offspring p).splitBy declareAlike).flatMap runRules).map fun r => (r.1, r.2.2) := by
    rw [rules, hg.offspring_eq', hg.offspring_eq, rules_of_groups hg.beside.1]
  rw [hbefore, hafter, List.map_map, List.map_map, List.forall₂_map_left_iff, List.forall₂_map_right_iff, List.forall₂_same]
  constructor
  · refine List.map_congr_left fun r hr => ?_
    obtain ⟨run, hrun, hr⟩ := List.mem_flatMap.mp hr
    obtain ⟨e, he, -, hdeclared⟩ := mem_runRules.mp hr
    simp only [Function.comp_apply, asMap, hdeclared, get?_leading hrun he]
  · constructor
    · intro hall run hrun e he hfragments
      obtain ⟨fragment, hfragment⟩ := List.exists_mem_of_ne_nil _ hfragments
      exact hall (fragment, e.2.declarations, leading run)
        (List.mem_flatMap.mpr ⟨run, hrun, mem_runRules.mpr ⟨e, he, hfragment, rfl⟩⟩)
    · intro hall r hr
      obtain ⟨run, hrun, hr⟩ := List.mem_flatMap.mp hr
      obtain ⟨e, he, hfragment, hdeclared⟩ := mem_runRules.mp hr
      rw [hdeclared]
      exact hall run hrun e he (List.ne_nil_of_mem hfragment)

/-- Two neighbours that declare the same, one with the border of a side behind the border and one in front of it. -/
def bordersSwapped : Document :=
  let border : Declaration := ("border", { text := "1px" })
  let side : Declaration := ("border-top", { text := "2px" })
  (empty.addBlock root { name := "a", kind := .selector ["a"], declarations := .ofList [border, side] }).addBlock root
    { name := "b", kind := .selector ["b"], declarations := .ofList [side, border] }

/-- The rules stay what they are as maps, and there is one block less. -/
theorem groupEqual_adjacent_keeps_bordersSwapped :
    bordersSwapped.WellFormed ∧ (groupEqual true bordersSwapped root).1.blockCount + 1 = bordersSwapped.blockCount ∧
      ((groupEqual true bordersSwapped root).1.rules root).map asMap = (bordersSwapped.rules root).map asMap := by
  have hwell : bordersSwapped.WellFormed := by decide +kernel
  exact ⟨hwell, by decide +kernel, (groupEqual_adjacent_keeps hwell .start).1⟩

/-- No selector holds blocks, and yet the second one is left with its border behind that of the side. -/
theorem not_sameOverriding_bordersSwapped :
    bordersSwapped.WellFormed ∧ (∀ id ∈ bordersSwapped.childBlocks root, bordersSwapped.childBlocks id = []) ∧
      ¬ List.Forall₂ (fun rule rule' => rule.2.SameOverriding rule'.2) (bordersSwapped.rules root)
        ((groupEqual true bordersSwapped root).1.rules root) := by
  refine ⟨by decide +kernel, by decide +kernel, fun hall => ?_⟩
  have hbefore : (bordersSwapped.rules root).map (·.2.properties) = [["border", "border-top"], ["border-top", "border"]] := by
    decide +kernel
  have hafter : ((groupEqual true bordersSwapped root).1.rules root).map (·.2.properties)
      = [["border", "border-top"], ["border", "border-top"]] := by
    decide +kernel
  have hproperties : List.Forall₂ (fun l l' => ∀ p q,
      Text.startsWith q (p ++ "-") = true ∨ Text.startsWith p (q ++ "-") = true → ([p, q].Sublist l ↔ [p, q].Sublist l'))
      ((bordersSwapped.rules root).map (·.2.properties))
      (((groupEqual true bordersSwapped root).1.rules root).map (·.2.properties)) := by
    rw [List.forall₂_map_left_iff, List.forall₂_map_right_iff]
    exact hall
  rw [hbefore, hafter] at hproperties
  obtain ⟨-, hsecond⟩ := List.forall₂_cons.mp hproperties
  obtain ⟨hsecond, -⟩ := List.forall₂_cons.mp hsecond
  have hborders := hsecond "border" "border-top" (.inl (by decide +kernel))
  exact absurd (hborders.mpr (by decide)) (by decide)

end Selector

end Stylesheet
