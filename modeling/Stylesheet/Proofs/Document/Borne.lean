import Stylesheet.Proofs.Document.Arena

/-!
# What a well-formed document bears

A document is well formed if a walk from its root meets every block once, and only blocks that are there. Nothing is said
about blocks that the walk does not come to. So the table holds the root with twigs of which none is lost, and beside
them whatever else there is (`WellFormed.exists_bears`).

The twigs are read off the walk. It goes down no further than its bound allows, but the blocks on the way down are all
different, so it never comes to that bound (`exists_twig`).
-/

namespace Stylesheet

namespace Document

open Twig List

variable {d : Document} {h : Head} {ts : List Twig} {rest : List (BlockId × Block)}

/-- Different blocks that are there are no more than the table has places. -/
theorem length_le_of_isLive {ids : List BlockId} (hnodup : ids.Nodup) (hlive : ∀ id ∈ ids, d.isLive id) :
    ids.length ≤ d.blocks.size := by
  have hsub : ids ⊆ d.liveEntries.map Prod.fst := by
    intro id hid
    obtain ⟨b, hb⟩ := Option.isSome_iff_exists.mp (hlive id hid)
    exact mem_map.mpr ⟨(id, b), mem_liveEntries.mpr hb, rfl⟩
  have hholds : d.Holds d.liveEntries := fun e he => mem_liveEntries.mp he
  calc
    ids.length ≤ (d.liveEntries.map Prod.fst).length := (hnodup.subperm hsub).length_le
    _ = d.liveEntries.length := length_map _
    _ ≤ d.blocks.size := hholds.length_le (nodup_liveEntries d)

/-- The table holds a twig that a walk down to some depth meets, and nothing of it is lost. -/
structure Bearing (d : Document) (fuel : Nat) (id : BlockId) (t : Twig) : Prop where
  child_eq : t.child = .block id
  holds : d.Holds t.entries
  lost_eq : t.lost = []
  walked_eq : t.walked = d.walkFrom fuel id

/-- The twigs of children whose blocks have twigs. -/
theorem exists_twigs {fuel : Nat} {children : List Child}
    (hblocks : ∀ id ∈ children.filterMap Child.blockId?, ∃ t, d.Bearing fuel id t) :
    ∃ ts : List Twig, ts.map child = children ∧ d.Holds (entriesOf ts) ∧ lostOf ts = [] ∧
      walkedOf ts = (children.filterMap Child.blockId?).flatMap (d.walkFrom fuel) := by
  induction children with
  | nil => exact ⟨[], rfl, fun _ he => absurd he not_mem_nil, rfl, rfl⟩
  | cons c children ih =>
    -- a child that is no block has no entries
    have hplain (t : Twig) (ht : t.child = c) (hc : c.blockId? = none) (hentries : t.entries = []) (hlost : t.lost = [])
        (hwalked : t.walked = []) : ∃ ts : List Twig, ts.map child = c :: children ∧ d.Holds (entriesOf ts) ∧
          lostOf ts = [] ∧ walkedOf ts = ((c :: children).filterMap Child.blockId?).flatMap (d.walkFrom fuel) := by
      rw [filterMap_cons_none hc] at hblocks ⊢
      obtain ⟨ts, rfl, hholds, hnone, hwalk⟩ := ih hblocks
      refine ⟨t :: ts, by rw [map_cons, ht], ?_, ?_, ?_⟩
      · rwa [entriesOf, hentries]
      · rw [lostOf, hlost, hnone, nil_append]
      · rw [walkedOf, hwalked, hwalk, nil_append]
    cases c with
    | lineAt rule => exact hplain (.lineAt rule) rfl rfl rfl rfl rfl
    | comment text => exact hplain (.comment text) rfl rfl rfl rfl rfl
    | block id =>
      have hids : (Child.block id :: children).filterMap Child.blockId? = id :: children.filterMap Child.blockId? := rfl
      rw [hids, forall_mem_cons] at hblocks
      obtain ⟨⟨t, hchild, hentries, hlost, hwalked⟩, hmore⟩ := hblocks
      obtain ⟨ts, rfl, hholds, hnone, hwalk⟩ := ih hmore
      refine ⟨t :: ts, by rw [map_cons, hchild], ?_, ?_, ?_⟩
      · rw [entriesOf]
        exact forall_mem_append.mpr ⟨hentries, hholds⟩
      · rw [lostOf, hlost, hnone, nil_append]
      · rw [walkedOf, hwalked, hwalk, hids, flatMap_cons]

/-- **A walk that meets every block once has twigs**, if it may go down further than there are places in the table. The
way down to the block is what has been met already. -/
theorem exists_twig (fuel : Nat) (id : BlockId) (way : List BlockId) (hdeep : d.blocks.size < way.length + fuel)
    (hnodup : (way ++ d.walkFrom fuel id).Nodup) (hlive : ∀ x ∈ way ++ d.walkFrom fuel id, d.isLive x) :
    ∃ t, d.Bearing fuel id t := by
  induction fuel generalizing id way with
  | zero =>
    -- the way down would be longer than there are places
    have hle := length_le_of_isLive hnodup hlive
    rw [walkFrom, append_nil] at hle
    omega
  | succ fuel ih =>
    rw [walkFrom, append_cons] at hnodup hlive
    obtain ⟨b, hb⟩ := Option.isSome_iff_exists.mp (hlive id (by simp))
    have hchildren : d.childBlocks id = b.children.filterMap Child.blockId? := by
      rw [childBlocks, hb]
      rfl
    have hinner : ∀ c ∈ b.children.filterMap Child.blockId?, ∃ t, d.Bearing fuel c t := by
      intro c hc
      have hsub : (way ++ [id] ++ d.walkFrom fuel c).Sublist
          (way ++ [id] ++ (d.childBlocks id).flatMap (d.walkFrom fuel)) := by
        rw [hchildren]
        exact List.Sublist.append_left (sublist_flatten_of_mem (mem_map_of_mem hc)) _
      refine ih c (way ++ [id]) ?_ (hnodup.sublist hsub) fun x hx => hlive x (hsub.subset hx)
      rw [length_append, length_singleton]
      omega
    obtain ⟨ts, hmap, hholds, hlost, hwalk⟩ := exists_twigs hinner
    refine ⟨.block id ⟨b.name, b.kind, b.declarations⟩ ts, rfl, ?_, hlost, ?_⟩
    · rw [entries, hmap]
      exact forall_mem_cons.mpr ⟨hb, hholds⟩
    · rw [walked, hwalk, walkFrom, hchildren]

/-- Whatever else a table holds can be put beside entries that it holds. -/
theorem Holds.exists_exact {es : List (BlockId × Block)} (h : d.Holds es) (hnodup : (es.map Prod.fst).Nodup) :
    ∃ rest, d.Exact (es ++ rest) := by
  refine ⟨d.liveEntries.filter fun e => decide (e.1 ∉ es.map Prod.fst), ?_, fun id b => ?_⟩
  · rw [map_append]
    refine hnodup.append ((nodup_liveEntries d).sublist (filter_sublist.map _)) fun id hid hother => ?_
    obtain ⟨e, he, rfl⟩ := mem_map.mp hother
    exact of_decide_eq_true (mem_filter.mp he).2 hid
  · rw [mem_append, mem_filter, mem_liveEntries, decide_eq_true_iff]
    constructor
    · intro hget
      by_cases hid : id ∈ es.map Prod.fst
      · obtain ⟨⟨id, b'⟩, he, rfl⟩ := mem_map.mp hid
        obtain rfl : b = b' := Option.some.inj (hget.symm.trans (h (id, b') he))
        exact .inl he
      · exact .inr ⟨hget, hid⟩
    · rintro (he | ⟨hget, -⟩)
      · exact h (id, b) he
      · exact hget

/-- **A well-formed document** is its root with twigs of which none is lost, and whatever the walk does not come to. -/
theorem WellFormed.exists_bears (hwell : d.WellFormed) : ∃ h ts rest, d.Bears root h ts rest ∧ lostOf ts = [] := by
  obtain ⟨t, hchild, hholds, hlost, hwalked⟩ :=
    exists_twig d.maxDepth root [] (Nat.lt_of_lt_of_eq (Nat.lt_succ_self _) (Nat.zero_add _).symm) hwell.1 hwell.2
  cases t with
  | block id h ts =>
    cases hchild
    have hnodup : ((Twig.block root h ts).entries.map Prod.fst).Nodup := by
      rw [entries, map_cons, ← walkedOf_eq ts hlost, ← walked, hwalked]
      exact hwell.1
    obtain ⟨rest, hexact⟩ := hholds.exists_exact hnodup
    have hnone : lostOf ts = [] := hlost
    exact ⟨h, ts, rest, ⟨hexact, by simp [hnone]⟩, hnone⟩
  | gone id => cases hlost
  | lineAt rule => cases hchild
  | comment text => cases hchild

/-! ## Documents that bear twigs -/

theorem Bears.wellFormed (hb : d.Bears root h ts rest) (hlost : lostOf ts = []) : d.WellFormed := by
  have hnodup := hb.exact.nodup
  rw [← cons_append, map_append] at hnodup
  rw [WellFormed, hb.walk_eq, walkedOf_eq ts hlost]
  refine ⟨hnodup.of_append_left, fun id hid => hb.exact.isLive_iff.mpr ?_⟩
  rw [← cons_append, map_append]
  exact mem_append_left _ hid

end Document

end Stylesheet
