import Stylesheet.Proofs.Layout.Strict
import Stylesheet.Proofs.Reader.Strict
import Stylesheet.Proofs.Tidy.Passes

/-!
# No block is looked up that is gone

`Strict.tidied` is a whole run, from the text to the document, in which every lookup of a block that is not there makes
the run fail, and so does a descent that is cut short. Such a run never fails, nor does writing what comes out.

What makes this so is that no at-rule that is reached through at-rules refers to a block that is gone, at any stage
(`Document.stages`). Selectors may well do so.
-/

namespace Stylesheet

open Twig

namespace Strict

/-- The document of a stylesheet before it is checked for being empty, if every block that is looked up is there. -/
def tidied (o : Options) (css : String) : Option (Document × List Message) := do
  let (d, read) ← read o css
  if o.preserveCss then return (d, read)
  else
    let (d, improved) ← improve o d
    return (d, read ++ improved)

end Strict

namespace Document

variable {d : Document} {ts : List Twig}

/-- What the passes make of a document, one after the other. -/
def stages (o : Options) (d : Document) : List Document :=
  let shortened := (d.tidyShorthands o.optimiseShorthands).1
  let discarded := if o.discardInvalidSelectors then (Selector.discardInvalid shortened root).1 else shortened
  let merged := if o.mergeSelectors = .all then (Selector.mergeNames discarded root).1 else discarded
  let arranged := (Selector.arrange o.mergeSelectors o.discardInvalidSelectors shortened).document
  [d, shortened, discarded, merged, arranged, (d.improve o).1]

theorem Plants.discardInvalid (hp : d.Plants ts) (hsound : SoundOf ts) :
    ∃ us, (Selector.discardInvalid d root).1.Plants us ∧ SoundOf us := by
  obtain ⟨us, -, hbecomes, hus, -⟩ := Selector.discardFrom_becomes _ hp hsound hp.length_lt
  exact ⟨us, hbecomes.bears, hus⟩

theorem Plants.mergeNames (hp : d.Plants ts) (hsound : SoundOf ts) :
    ∃ us, (Selector.mergeNames d root).1.Plants us ∧ SoundOf us := by
  obtain ⟨us, -, hbecomes, hmerges, -⟩ := Selector.mergeNamesFrom_reworks _ hp hsound hp.length_lt
  exact ⟨us, hbecomes.bears, (Selector.retains_of_mergesNames hmerges).sound hsound⟩

/-- Every stage is sound, if nothing is lost from the document that goes in. -/
theorem Plants.sound_stages (hp : d.Plants ts) (hlost : lostOf ts = []) (o : Options) : ∀ e ∈ d.stages o, e.Sound := by
  suffices hplants : ∀ e ∈ d.stages o, ∃ us, e.Plants us ∧ SoundOf us from fun e he => by
    obtain ⟨us, hus, hsound⟩ := hplants e he
    exact hus.sound hsound
  have hsound := soundOf_of_lostOf ts hlost
  have hshortened := hp.tidyBlocks o.optimiseShorthands d.walk
  have hshortened' : ∃ us, (d.tidyShorthands o.optimiseShorthands).1.Plants us ∧ SoundOf us :=
    ⟨_, hshortened, soundOf_redeclareOf ts hsound⟩
  have hwhen {e : Document} (p : Prop) [Decidable p] {e' : Document} (h : ∃ us, e.Plants us ∧ SoundOf us)
      (h' : (∃ us, e.Plants us ∧ SoundOf us) → ∃ us, e'.Plants us ∧ SoundOf us) :
      ∃ us, (if p then e' else e).Plants us ∧ SoundOf us := by
    split
    · exact h' h
    · exact h
  have hdiscarded := hwhen (o.discardInvalidSelectors = true) hshortened' fun ⟨_, hus, h⟩ => hus.discardInvalid h
  have hmerged := hwhen (o.mergeSelectors = .all) hdiscarded fun ⟨_, hus, h⟩ => hus.mergeNames h
  obtain ⟨us, hus, h⟩ := hshortened'
  obtain ⟨vs, -, harranged, hvs⟩ := Selector.arrange_becomes o.mergeSelectors o.discardInvalidSelectors hus h
  obtain ⟨ws, -, himproved, hws⟩ := improve_becomes o hp hlost
  simp only [stages, List.forall_mem_cons, List.not_mem_nil, false_imp_iff, implies_true, and_true]
  exact ⟨⟨ts, hp, hsound⟩, ⟨us, hus, h⟩, hdiscarded, hmerged, ⟨vs, harranged.bears, hvs⟩, ⟨ws, himproved.bears, hws⟩⟩

end Document

/-- The document of a stylesheet is its root with some twigs, and it is found without failing. -/
theorem tidied_becomes (o : Options) (css : String) :
    ∃ ts, Strict.tidied o css = some (tidied o css) ∧
      (Document.read o css).1.Becomes (tidied o css).1 Document.root Head.root ts [] := by
  obtain ⟨ts, hp, hlost⟩ := Reader.read_plants o css
  obtain ⟨us, hstrict, hbecomes, -⟩ := Document.improve_becomes o hp hlost
  unfold Strict.tidied tidied
  simp only [Reader.strict_read, Option.bind_eq_bind, Option.bind_some]
  split
  · exact ⟨ts, rfl, .refl hp⟩
  · simp only [hstrict, Option.bind_some]
    exact ⟨us, rfl, hbecomes⟩

/-- **No run looks up a block that is gone.** With lookups that fail, a run from a stylesheet to its document comes to
the same end, and so does writing the document in any layout. No at-rule that is reached through at-rules refers to a
block that is gone, at any stage of the run. -/
theorem strict_tidied_eq (o : Options) (css : String) :
    Strict.tidied o css = some (tidied o css) ∧
      (∀ layout, Strict.render layout (tidied o css).1 = some ((tidied o css).1.render layout)) ∧
      ∀ d ∈ (Document.read o css).1.stages o, d.Sound := by
  obtain ⟨ts, hp, hlost⟩ := Reader.read_plants o css
  obtain ⟨us, hstrict, hbecomes⟩ := tidied_becomes o css
  exact ⟨hstrict, Document.Plants.strict_render hbecomes.bears, hp.sound_stages hlost o⟩

end Stylesheet
