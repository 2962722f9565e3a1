import Stylesheet.Selector.MergeNames
import Stylesheet.Proofs.Document.Twig

/-!
# Homes of blocks that are put together

Where blocks are put into earlier ones, some of them are gone afterwards, but nothing that they held is. Every block has
a home in the new document (`FoldsBy`): itself if it is still there, and the block that it was put into otherwise. What
stood in a block then stands in its home, and a block that stood there stands there by its own home.

This is so as long as no block stands in two others (`OneParent`), which putting blocks together keeps that way
(`moveInto_folds`).
-/

namespace Stylesheet

/-- The child, with another identifier if it is a block. -/
def Child.rename (home : BlockId → BlockId) : Child → Child
  | block id => block (home id)
  | c => c

theorem Child.rename_rename (home home' : BlockId → BlockId) (c : Child) :
    (c.rename home).rename home' = c.rename (home' ∘ home) := by
  cases c <;> rfl

theorem Child.rename_id (c : Child) : c.rename id = c := by
  cases c <;> rfl

namespace Document

/-- No block that is there stands in two others. -/
def OneParent (d : Document) : Prop :=
  ∀ id p q, d.isLive id → id ∈ d.childBlocks p → id ∈ d.childBlocks q → p = q

open Selector (sameName)

/-- Every block of the first document has a home in the second, of the same name and kind. What stood in the block stands
in its home, and a block that stood there has its own home there. The blocks of the second document are their own
homes. -/
structure FoldsBy (home : BlockId → BlockId) (d d' : Document) : Prop where
  keeps : ∀ id b, d.get? id = some b → ∃ b', d'.get? (home id) = some b' ∧ sameName b b' = true ∧
    ∀ c ∈ b.children, c.rename home ∈ b'.children
  fixed : ∀ id, d'.isLive id → d.isLive id ∧ home id = id

variable {d d' d'' : Document} {home home' : BlockId → BlockId}

theorem FoldsBy.refl (d : Document) : FoldsBy id d d := by
  refine ⟨fun x b hget => ⟨b, hget, by simp [sameName], fun c hc => ?_⟩, fun x hlive => ⟨hlive, rfl⟩⟩
  rwa [c.rename_id]

theorem FoldsBy.trans (h : FoldsBy home d d') (h' : FoldsBy home' d' d'') : FoldsBy (home' ∘ home) d d'' := by
  refine ⟨fun x b hget => ?_, fun x hlive => ?_⟩
  · obtain ⟨b', hget', hname, hchildren⟩ := h.keeps x b hget
    obtain ⟨b'', hget'', hname', hchildren'⟩ := h'.keeps _ b' hget'
    refine ⟨b'', hget'', ?_, fun c hc => ?_⟩
    · simp only [sameName, Bool.and_eq_true, beq_iff_eq] at hname hname' ⊢
      exact ⟨hname.1.trans hname'.1, hname.2.trans hname'.2⟩
    · rw [← c.rename_rename]
      exact hchildren' _ (hchildren c hc)
  · obtain ⟨hlive', hfixed'⟩ := h'.fixed x hlive
    obtain ⟨hlive, hfixed⟩ := h.fixed x hlive'
    exact ⟨hlive, by rw [Function.comp_apply, hfixed, hfixed']⟩

/-- The second document comes from the first by putting blocks into others. -/
def Folds (d d' : Document) : Prop := d.OneParent → d'.OneParent ∧ ∃ home, FoldsBy home d d'

theorem Folds.refl (d : Document) : d.Folds d := fun h => ⟨h, id, .refl d⟩

theorem Folds.trans (h : d.Folds d') (h' : d'.Folds d'') : d.Folds d'' := by
  intro hone
  obtain ⟨hone', home, hfolds⟩ := h hone
  obtain ⟨hone'', home', hfolds'⟩ := h' hone'
  exact ⟨hone'', home' ∘ home, hfolds.trans hfolds'⟩

end Document

namespace Selector

open Document

/-! ## One block put into another -/

variable {d : Document} {parent id target : BlockId} {b t : Block}

theorem get?_moveInto (d : Document) (parent id target x : BlockId) (b : Block) :
    (moveInto d parent id target b).get? x =
      if target = x then ((if id = x then none else (d.detach parent id).get? x).map fun t =>
        { t with declarations := t.declarations.merge b.declarations, children := t.children ++ b.children })
      else if id = x then none else (d.detach parent id).get? x := by
  rw [moveInto, get?_modify, get?_vacate]

/-- The other blocks are still there, and still hold what they held, but for the block that is put into another. -/
theorem exists_get?_moveInto (parent target : BlockId) (b : Block) {x : BlockId} (hx : x ≠ id) {c : Block}
    (hget : d.get? x = some c) :
    ∃ c', (moveInto d parent id target b).get? x = some c' ∧ sameName c c' = true ∧
      (∀ y ∈ c.children, y ≠ .block id → y ∈ c'.children) ∧ (x = target → b.children ⊆ c'.children) := by
  have hdetach : ∃ p, (d.detach parent id).get? x = some p ∧ sameName c p = true ∧
      ∀ y ∈ c.children, y ≠ .block id → y ∈ p.children := by
    rw [detach, get?_modify, hget]
    split
    · refine ⟨_, rfl, by simp [sameName, Block.isSelector], fun y hy hne => ?_⟩
      exact List.mem_filter.mpr ⟨hy, bne_iff_ne.mpr hne⟩
    · exact ⟨c, rfl, by simp [sameName], fun y hy _ => hy⟩
  obtain ⟨p, hp, hname, hchildren⟩ := hdetach
  rw [get?_moveInto, if_neg hx.symm, hp]
  split
  · exact ⟨_, rfl, hname, fun y hy hne => List.mem_append_left _ (hchildren y hy hne),
      fun _ => List.subset_append_right _ _⟩
  · next htarget => exact ⟨p, rfl, hname, hchildren, fun heq => absurd heq.symm htarget⟩

/-- What stands in a block afterwards stood there before, or in the block that was put into it. -/
theorem mem_childBlocks_moveInto (hget : d.get? id = some b) {x y : BlockId}
    (hy : y ∈ (moveInto d parent id target b).childBlocks x) :
    (x ≠ id ∧ y ∈ d.childBlocks x) ∨ (x = target ∧ y ∈ d.childBlocks id) := by
  obtain ⟨c, hc, hmem⟩ := mem_childBlocks.mp hy
  have hbefore {p : Block} (hp : (if id = x then none else (d.detach parent id).get? x) = some p)
      (hmem : .block y ∈ p.children) : x ≠ id ∧ y ∈ d.childBlocks x := by
    split at hp
    · cases hp
    · next hne =>
      rw [detach, get?_modify] at hp
      refine ⟨Ne.symm hne, mem_childBlocks.mpr ?_⟩
      split at hp
      · obtain ⟨q, hq, rfl⟩ := Option.map_eq_some_iff.mp hp
        exact ⟨q, hq, List.mem_of_mem_filter hmem⟩
      · exact ⟨p, hp, hmem⟩
  rw [get?_moveInto] at hc
  split at hc
  · next htarget =>
    obtain ⟨p, hp, rfl⟩ := Option.map_eq_some_iff.mp hc
    rcases List.mem_append.mp hmem with hmem | hmem
    · exact .inl (hbefore hp hmem)
    · exact .inr ⟨htarget.symm, mem_childBlocks.mpr ⟨b, hget, hmem⟩⟩
  · exact .inl (hbefore hc hmem)

/-- A block that is there afterwards is another one, and was there before. -/
theorem isLive_of_moveInto {x : BlockId} (h : (moveInto d parent id target b).isLive x) : x ≠ id ∧ d.isLive x := by
  rw [isLive, get?_moveInto, detach, get?_modify] at h
  rw [isLive]
  by_cases hid : id = x
  · simp [hid] at h
  · refine ⟨Ne.symm hid, ?_⟩
    cases hget : d.get? x with
    | none => simp [hid, hget] at h
    | some c => rfl

/-- **A block that is put into another one** beside it has that one as its home. -/
theorem moveInto_folds (hget : d.get? id = some b) (htarget : d.get? target = some t) (hsame : sameName b t = true)
    (hid : id ∈ d.childBlocks parent) (hbeside : target ∈ d.childBlocks parent) (hne : target ≠ id) :
    d.Folds (moveInto d parent id target b) := by
  intro hone
  have hlive : d.isLive id := by rw [isLive, hget]; rfl
  constructor
  · intro y p q hy hp hq
    have hthere : d.isLive y := (isLive_of_moveInto hy).2
    rcases mem_childBlocks_moveInto hget hp with ⟨hpid, hp'⟩ | ⟨hp, hp'⟩ <;>
      rcases mem_childBlocks_moveInto hget hq with ⟨hqid, hq'⟩ | ⟨hq, hq'⟩
    · exact hone y p q hthere hp' hq'
    · exact absurd (hone y p id hthere hp' hq') hpid
    · exact absurd (hone y q id hthere hq' hp') hqid
    · rw [hp, hq]
  · refine ⟨fun x => if x = id then target else x, fun x c hc => ?_, fun x hx => ?_⟩
    -- a block that stood beside the home stands there by it, and others stay what they are
    · have hrename {c' : Block} (hkeeps : ∀ y ∈ c.children, y ≠ .block id → y ∈ c'.children) :
          ∀ y ∈ c.children, y.rename (fun x => if x = id then target else x) ∈ c'.children := by
        intro y hy
        cases y with
        | lineAt rule => exact hkeeps (.lineAt rule) hy (by simp)
        | comment text => exact hkeeps (.comment text) hy (by simp)
        | block i =>
          show Child.block (if i = id then target else i) ∈ c'.children
          split
          · next heq =>
            subst heq
            obtain rfl : x = parent := hone i x parent hlive (mem_childBlocks.mpr ⟨c, hc, hy⟩) hid
            obtain ⟨c₀, hc₀, hmem⟩ := mem_childBlocks.mp hbeside
            obtain rfl : c = c₀ := Option.some.inj (hc.symm.trans hc₀)
            exact hkeeps _ hmem (by simpa using hne)
          · next hi => exact hkeeps _ hy (by simpa using hi)
      by_cases hx : x = id
      · subst hx
        obtain rfl : c = b := Option.some.inj (hc.symm.trans hget)
        obtain ⟨t', ht', hname, -, hmoved⟩ := exists_get?_moveInto parent target c hne htarget
        refine ⟨t', by rwa [if_pos rfl], ?_, hrename fun y hy _ => hmoved rfl hy⟩
        simp only [sameName, Bool.and_eq_true, beq_iff_eq] at hsame hname ⊢
        exact ⟨hsame.1.trans hname.1, hsame.2.trans hname.2⟩
      · obtain ⟨c', hc', hname, hkeeps, -⟩ := exists_get?_moveInto parent target b hx hc
        exact ⟨c', by rwa [if_neg hx], hname, hrename hkeeps⟩
    · obtain ⟨hx, hlive⟩ := isLive_of_moveInto hx
      exact ⟨hlive, if_neg hx⟩

end Selector

end Stylesheet
