import Stylesheet.Selector.Arrange
import Stylesheet.Proofs.Reader.Table
import Stylesheet.Proofs.Selector.Discard
import Stylesheet.Proofs.Selector.Group
import Stylesheet.Proofs.Selector.MergeNames
import Stylesheet.Proofs.Selector.Separate

/-!
# What arranging selectors loses

Two of the passes take a selector out of the tree with all blocks below it and hand on its children as if they were
still there: those that take groups apart and those that put selectors with equal declarations together. The children
that are blocks are then gone, though they are still referred to.

`Lossless mode d` says where this does not happen. It is what the tree has to be like for an arranged document to be
well formed again, and then no at-rule with declarations is missing (`wellFormed_arrange_read_iff`).
-/

namespace Stylesheet

open Twig Document

namespace Strict

open Selector

/-- Takes selectors apart, groups them or merges them, and fails if a block that is looked up is gone or a descent is cut
short. -/
def regroup (mode : SelectorMerge) (d : Document) : Option Arranged :=
  match mode with
  | .off => return { document := d }
  | .separate => return { document := ← separateFrom d.maxDepth d root }
  | .adjacent => do
    let (d, log) ← groupFrom true d.maxDepth d root
    return { document := d, log }
  | .all => do
    let m ← mergeNamesFrom d.maxDepth d root
    let (d, grouped) ← groupFrom false m.document.maxDepth m.document root
    return { document := d, merged := m.merged, log := m.log ++ grouped }

/-- Arranges the selectors of a document, and fails if a block that is looked up is gone or a descent is cut short. -/
def arrange (mode : SelectorMerge) (discard : Bool) (d : Document) : Option Arranged := do
  let (d, discarded) ← if discard then discardFrom d.maxDepth d root else some (d, [])
  let a ← regroup mode d
  return { a with log := discarded ++ a.log }

end Strict

namespace Document

/-- Every at-rule with declarations in the tree of the first document is in that of the second, under its name and with
all its properties. -/
def AtRulesKept (d d' : Document) : Prop :=
  ∀ id ∈ d.walk, ∀ b, d.get? id = some b → b.isAtBlock = true → b.declarations.isEmpty = false →
    ∃ id' ∈ d'.walk, ∃ b', d'.get? id' = some b' ∧ b'.isAtBlock = true ∧ b'.name = b.name ∧
      ∀ property, b.declarations.contains property = true → b'.declarations.contains property = true

variable {d d' : Document} {ts us : List Twig}

theorem Plants.atRulesKept (hp : d.Plants ts) (hp' : d'.Plants us) (hcovers : Selector.Covers ts us) :
    d.AtRulesKept d' := by
  intro id _ b hget hat hdeclares
  rcases List.mem_cons.mp ((hp.exact.get?_iff id b).mp hget) with heq | hmem
  · -- the root has no declarations
    cases heq
    cases hdeclares
  · obtain ⟨⟨id', b'⟩, hmem', hrest⟩ := hcovers _ hmem hat
    have hget' : d'.get? id' = some b' := (hp'.exact.get?_iff id' b').mpr (List.mem_cons_of_mem _ hmem')
    exact ⟨id', hp'.mem_walk_of_isLive (by rw [isLive, hget']; rfl), b', hget', hrest⟩

end Document

namespace Selector

variable {d : Document} {ts : List Twig}

/-- No selector that is taken apart, or put together with another one, holds blocks. -/
def Lossless (mode : SelectorMerge) (d : Document) : Prop :=
  match mode with
  | .off => True
  | .separate => ∀ id, d.Reached root id → Separable (d.siblings id)
  | .adjacent => ∀ id, d.Reached root id → Mergeable true (d.siblings id)
  | .all =>
    let d := (mergeNames d root).1
    ∀ id, d.Reached root id → Mergeable false (d.siblings id)

/-- The passes that arrange selectors, without the one that discards some. -/
theorem regroup_becomes (mode : SelectorMerge) (hp : d.Plants ts) (hsound : SoundOf ts) :
    ∃ us, Strict.regroup mode d = some (arrange mode false d) ∧
      d.Becomes (arrange mode false d).document root Head.root us [] ∧ SoundOf us ∧
      (Spelled ts → Faithful (Lossless mode d) ts us) := by
  have hlength := hp.length_lt
  cases mode with
  | off => exact ⟨ts, rfl, .refl hp, hsound, fun _ => .refl hsound⟩
  | separate =>
    obtain ⟨us, hstrict, hbecomes, hfaithful, -⟩ := separateFrom_reworks _ hp hsound hlength
    refine ⟨us, ?_, hbecomes, hfaithful.sound, fun _ => hfaithful.congr (Bears.forall_reached_iff hp).symm⟩
    simp [Strict.regroup, hstrict, arrange, separate]
  | adjacent =>
    obtain ⟨us, hstrict, hbecomes, hfaithful, -⟩ := groupFrom_reworks true _ hp hsound hlength
    refine ⟨us, ?_, hbecomes, hfaithful.sound, fun _ => hfaithful.congr (Bears.forall_reached_iff hp).symm⟩
    simp [Strict.regroup, hstrict, arrange, groupEqual]
  | all =>
    obtain ⟨us, hstrict, hbecomes, hmerges, -⟩ := mergeNamesFrom_reworks _ hp hsound hlength
    have hmerged : (mergeNames d root).1.Plants us := hbecomes.bears
    have hus := (retains_of_mergesNames hmerges).sound hsound
    obtain ⟨vs, hstrict', hbecomes', hfaithful, -⟩ := groupFrom_reworks false _ hmerged hus hmerged.length_lt
    refine ⟨vs, ?_, hbecomes'.trans_leads hbecomes.leads, hfaithful.sound, fun hspelled => ?_⟩
    · have hgrouped : Strict.groupFrom false (mergeNamesFrom d.maxDepth d root).document.maxDepth
          (mergeNamesFrom d.maxDepth d root).document root = some _ := hstrict'
      simp [Strict.regroup, hstrict, hgrouped, arrange, mergeNames, groupEqual]
    · refine (((retains_of_mergesNames hmerges).faithful hsound hspelled).trans hfaithful).congr ?_
      rw [true_and]
      exact (Bears.forall_reached_iff hmerged).symm

theorem arrange_discard (mode : SelectorMerge) (d : Document) :
    arrange mode true d = { arrange mode false (discardInvalid d root).1 with
      log := (discardInvalid d root).2 ++ (arrange mode false (discardInvalid d root).1).log } := by
  cases mode <;> simp [arrange]

/-- **Arranging** never looks up a block that is gone, and leaves a sound table. -/
theorem arrange_becomes (mode : SelectorMerge) (discard : Bool) (hp : d.Plants ts) (hsound : SoundOf ts) :
    ∃ us, Strict.arrange mode discard d = some (arrange mode discard d) ∧
      d.Becomes (arrange mode discard d).document root Head.root us [] ∧ SoundOf us := by
  cases discard with
  | false =>
    obtain ⟨us, hstrict, hbecomes, hus, -⟩ := regroup_becomes mode hp hsound
    exact ⟨us, by simp [Strict.arrange, hstrict], hbecomes, hus⟩
  | true =>
    obtain ⟨us, hdiscard, hbecomes, hus, -⟩ := discardFrom_becomes _ hp hsound hp.length_lt
    have hdiscarded : (discardInvalid d root).1.Plants us := hbecomes.bears
    obtain ⟨vs, hstrict, hbecomes', hvs, -⟩ := regroup_becomes mode hdiscarded hus
    rw [arrange_discard]
    refine ⟨vs, ?_, hbecomes'.trans_leads hbecomes.leads, hvs⟩
    rw [discardInvalid] at hstrict
    simp [Strict.arrange, hdiscard, hstrict, discardInvalid]

/-- The values that are read have a text. -/
theorem spelled_of_read (o : Options) (css : String) (hp : (Document.read o css).1.Plants ts) : Spelled ts := by
  have hdeclares : (Document.read o css).1.Declares (fun ds => ∀ x ∈ ds.entries, x.2.text ≠ "") [] :=
    Reader.read_declares o css (fun x hx => absurd hx List.not_mem_nil) fun _ _ _ hds _ hx =>
      Declarations.text_ne_of_mem_insert hds hx
  intro e he
  exact hdeclares e.1 e.2 (hp.exact.holds e (List.mem_cons_of_mem _ he)) List.not_mem_nil

/-- **What arranging loses.** A document that has been read and whose selectors are then arranged is well formed exactly
where no selector that is taken apart, or put together with another one, holds blocks. No at-rule with declarations is
missing then. -/
theorem wellFormed_arrange_read_iff (o : Options) (css : String) (mode : SelectorMerge) :
    ((arrange mode false (Document.read o css).1).document.WellFormed ↔ Lossless mode (Document.read o css).1) ∧
      (Lossless mode (Document.read o css).1 →
        (Document.read o css).1.AtRulesKept (arrange mode false (Document.read o css).1).document) := by
  obtain ⟨ts, hp, hlost⟩ := Reader.read_plants o css
  obtain ⟨us, -, hbecomes, -, hfaithful⟩ := regroup_becomes mode hp (soundOf_of_lostOf ts hlost)
  have hplants : (arrange mode false (Document.read o css).1).document.Plants us := hbecomes.bears
  have hkept := hfaithful (spelled_of_read o css hp)
  have hiff : lostOf us = [] ↔ Lossless mode (Document.read o css).1 := by
    rw [hkept.lost_iff, and_iff_right hlost]
  exact ⟨hplants.wellFormed_iff.trans hiff, fun h => hp.atRulesKept hplants (hkept.covers (hiff.mpr h))⟩

/-- Two selectors with equal declarations, and a page in the second. -/
def pageInSecond : Document where
  blocks := #[
    some { name := "", kind := .atBlock, children := [.block ⟨1⟩, .block ⟨2⟩] },
    some { name := "a", kind := .selector ["a"], declarations := .ofList [("color", ⟨"red", false⟩)] },
    some { name := "b", kind := .selector ["b"], declarations := .ofList [("color", ⟨"red", false⟩)],
           children := [.block ⟨3⟩] },
    some { name := "@page", kind := .atBlock, declarations := .ofList [("margin", ⟨"0", false⟩)] }]

/-- **A page is lost** where the selector around it joins the one in front of it. -/
theorem not_wellFormed_arrange_pageInSecond :
    (Document.read {} "a\x7bcolor:red\x7db\x7bcolor:red;@page\x7bmargin:0\x7d\x7d").1 = pageInSecond ∧
      ¬ (arrange .adjacent false pageInSecond).document.WellFormed ∧
      ¬ pageInSecond.AtRulesKept (arrange .adjacent false pageInSecond).document := by
  refine ⟨Reader.read_view id _ _ 50 (by decide +kernel) (by decide +kernel), by decide +kernel, fun hkept => ?_⟩
  obtain ⟨id, hid, b, hget, -, hname, -⟩ := hkept ⟨3⟩ (by decide +kernel) _ rfl rfl rfl
  have hnone : ∀ id ∈ (arrange .adjacent false pageInSecond).document.walk,
      ((arrange .adjacent false pageInSecond).document.get? id).all (·.name != "@page") = true := by
    decide +kernel
  have hother := hnone id hid
  rw [hget, Option.all_some, bne_iff_ne] at hother
  exact hother hname

end Selector

end Stylesheet
