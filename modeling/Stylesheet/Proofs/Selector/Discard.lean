import Stylesheet.Selector.Discard
import Stylesheet.Proofs.Document.Change

/-!
# Discarding keeps a table sound
-/

namespace Stylesheet

open Twig Document

namespace Strict

open Selector

/-- Discards malformed selectors, and fails if a block that is looked up is gone or the descent is cut short. -/
def discardFrom : Nat → Document → BlockId → Option Logged
  | 0, _, _ => none
  | depth + 1, d, parent => do
    (← d.listedBlocks? parent).foldlM (fun (acc : Logged) id => do
      let b ← acc.1.get? id
      if b.isAtBlock then
        let inner ← discardFrom depth acc.1 id
        return (inner.1, acc.2 ++ inner.2)
      else if isValid b.name then return acc
      else
        let name := b.name
        return (acc.1.remove parent id,
          acc.2 ++ [.warn .selectors 0 s!"Removed invalid selector: {name}"])) (d, [])

end Strict

namespace Selector

variable {d : Document} {parent : BlockId} {h : Head} {ts : List Twig} {rest : List (BlockId × Block)}

/-- **Discarding** never looks up a block that is gone, and leaves a sound table. Where nothing was lost, nothing is. -/
theorem discardFrom_becomes (depth : Nat) (hb : d.Bears parent h ts rest) (hsound : SoundOf ts)
    (hdepth : (entriesOf ts).length < depth) :
    ∃ us, Strict.discardFrom depth d parent = some (discardFrom depth d parent) ∧
      d.Becomes (discardFrom depth d parent).1 parent h us rest ∧ SoundOf us ∧ (lostOf ts = [] → lostOf us = []) := by
  induction depth generalizing d parent h ts rest with
  | zero => omega
  | succ depth ih =>
    suffices hpass : ∃ us, Strict.discardFrom (depth + 1) d parent = some (discardFrom (depth + 1) d parent) ∧
        d.Becomes (discardFrom (depth + 1) d parent).1 parent h us rest ∧
        Each (fun t vs => SoundOf vs ∧ (t.lost = [] → lostOf vs = [])) ts us by
      obtain ⟨us, hstrict, hbecomes, heach⟩ := hpass
      exact ⟨us, hstrict, hbecomes, heach.sound fun _ _ _ hvs => hvs.1, heach.lost fun _ _ hvs => hvs.2⟩
    rw [Strict.discardFrom, discardFrom, hb.listedBlocks? hsound, hb.childBlocks_parent]
    have hts := soundOf_iff.mp hsound
    have hsame (t : Twig) (ht : t ∈ ts) : SoundOf [t] ∧ (t.lost = [] → lostOf [t] = []) :=
      ⟨⟨hts t ht, trivial⟩, fun hlost => lostOf_eq_nil_iff.mpr (by simpa using hlost)⟩
    refine foldl_children Prod.fst _ _ _ hsound (fun t ht _ => hsame t ht) ?_ (d, []) [] hb
    rintro id hd cs hmem ⟨d, log⟩ left right hb
    have hget : d.get? id = some (hd.block (cs.map child)) := hb.enter.get?_parent
    simp only [hget, Option.bind_eq_bind, Option.bind_some, Head.isAtBlock_block, Head.name_block]
    by_cases hat : hd.isAtBlock = true
    · have hlength := length_entriesOf_lt hmem
      obtain ⟨vs, hstrict, hinner, hvs, hlost⟩ := ih hb.enter (hts _ hmem hat) (by omega)
      simp only [hat, if_true, hstrict, Option.bind_some]
      exact ⟨[.block id hd vs], rfl, hinner.leave hb, ⟨fun _ => hvs, trivial⟩, fun h => by simpa [lostOf, lost] using hlost h⟩
    · simp only [hat, Bool.false_eq_true, if_false]
      by_cases hvalid : isValid hd.name = true
      · simp only [hvalid, if_true]
        exact ⟨[.block id hd cs], rfl, .refl hb, hsame _ hmem⟩
      · simp only [hvalid, Bool.false_eq_true, if_false]
        exact ⟨[], rfl, hb.remove_becomes, trivial, fun _ => rfl⟩

end Selector

end Stylesheet
