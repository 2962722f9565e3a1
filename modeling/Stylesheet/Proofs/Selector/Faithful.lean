import Stylesheet.Proofs.Document.Reach

/-!
# When a pass loses nothing

A pass is faithful under a condition if it makes no reference to a block that is gone exactly where the condition holds,
and if every at-rule is then still there (`Faithful`). What a pass does with each child of a block makes up what it does
with all of them, and passes can follow one another.
-/

namespace Stylesheet.Selector

open Twig

/-- Every at-rule of the first twigs is among the second under its name, with all its properties. -/
def Covers (ts us : List Twig) : Prop :=
  ∀ e ∈ entriesOf ts, e.2.isAtBlock = true → ∃ e' ∈ entriesOf us, e'.2.isAtBlock = true ∧ e'.2.name = e.2.name ∧
    ∀ property, e.2.declarations.contains property = true → e'.2.declarations.contains property = true

namespace Covers

variable {ts us vs ts' us' : List Twig}

theorem of_subset (h : entriesOf ts ⊆ entriesOf us) : Covers ts us :=
  fun e he hat => ⟨e, h he, hat, rfl, fun _ hp => hp⟩

theorem refl (ts : List Twig) : Covers ts ts := of_subset (List.Subset.refl _)

theorem trans (h : Covers ts us) (h' : Covers us vs) : Covers ts vs := by
  intro e he hat
  obtain ⟨e', he', hat', hname, hproperties⟩ := h e he hat
  obtain ⟨e'', he'', hat'', hname', hproperties'⟩ := h' e' he' hat'
  exact ⟨e'', he'', hat'', hname'.trans hname, fun p hp => hproperties' p (hproperties p hp)⟩

theorem append (h : Covers ts us) (h' : Covers ts' us') : Covers (ts ++ ts') (us ++ us') := by
  intro e he hat
  rw [entriesOf_append] at he ⊢
  rcases List.mem_append.mp he with he | he
  · obtain ⟨e', he', hrest⟩ := h e he hat
    exact ⟨e', List.mem_append_left _ he', hrest⟩
  · obtain ⟨e', he', hrest⟩ := h' e he hat
    exact ⟨e', List.mem_append_right _ he', hrest⟩

/-- A block is covered by one of its name that has its properties and covers what is in it. -/
theorem block {id id' : BlockId} {h h' : Head} {cs cs' : List Twig} (hinner : Covers cs cs')
    (hkind : h.isAtBlock = true → h'.isAtBlock = true ∧ h'.name = h.name ∧
      ∀ property, h.declarations.contains property = true → h'.declarations.contains property = true) :
    Covers [.block id h cs] [.block id' h' cs'] := by
  intro e he hat
  simp only [entriesOf, entries, List.append_nil, List.mem_cons] at he ⊢
  rcases he with rfl | he
  · obtain ⟨hat', hname, hproperties⟩ := hkind hat
    exact ⟨_, .inl rfl, hat', hname, hproperties⟩
  · obtain ⟨e', he', hrest⟩ := hinner e he hat
    exact ⟨e', .inr he', hrest⟩

end Covers

/-- The second twigs are sound. If nothing is lost from the first, then nothing is lost from the second exactly where
the condition holds, and then the first are covered. -/
structure Faithful (Q : Prop) (ts us : List Twig) : Prop where
  sound : SoundOf us
  lost_iff : lostOf us = [] ↔ lostOf ts = [] ∧ Q
  covers : lostOf us = [] → Covers ts us

namespace Faithful

variable {Q Q' : Prop} {ts us vs ts' us' : List Twig}

theorem refl (hsound : SoundOf ts) : Faithful True ts ts :=
  ⟨hsound, (and_iff_left trivial).symm, fun _ => .refl ts⟩

/-- A twig that is left alone. -/
theorem keep {t : Twig} (ht : t.Sound) (hQ : Q) : Faithful Q [t] [t] :=
  ⟨⟨ht, trivial⟩, (and_iff_left hQ).symm, fun _ => .refl [t]⟩

theorem congr (h : Faithful Q ts us) (hQ : Q ↔ Q') : Faithful Q' ts us :=
  ⟨h.sound, by rw [h.lost_iff, hQ], h.covers⟩

theorem trans (h : Faithful Q ts us) (h' : Faithful Q' us vs) : Faithful (Q ∧ Q') ts vs := by
  refine ⟨h'.sound, ?_, fun hlost => ?_⟩
  · rw [h'.lost_iff, h.lost_iff, and_assoc]
  · exact (h.covers (h'.lost_iff.mp hlost).1).trans (h'.covers hlost)

theorem append (h : Faithful Q ts us) (h' : Faithful Q' ts' us') : Faithful (Q ∧ Q') (ts ++ ts') (us ++ us') := by
  refine ⟨soundOf_append.mpr ⟨h.sound, h'.sound⟩, ?_, ?_⟩
  · simp only [lostOf_append, List.append_eq_nil_iff, h.lost_iff, h'.lost_iff]
    tauto
  · intro hlost
    rw [lostOf_append, List.append_eq_nil_iff] at hlost
    exact (h.covers hlost.1).append (h'.covers hlost.2)

/-- A pass into an at-rule. -/
theorem inside {id : BlockId} {h : Head} {cs cs' : List Twig} (hinner : Faithful Q cs cs') :
    Faithful Q [.block id h cs] [.block id h cs'] := by
  have hlost (us : List Twig) : lostOf [.block id h us] = lostOf us := by simp [lostOf, lost]
  refine ⟨⟨fun _ => hinner.sound, trivial⟩, ?_, fun hnil => ?_⟩
  · rw [hlost, hlost, hinner.lost_iff]
  · rw [hlost] at hnil
    exact .block (hinner.covers hnil) fun hat => ⟨hat, rfl, fun _ hp => hp⟩

/-- A pass through the children of a block is faithful if it is faithful to each of them. -/
theorem of_each {q : Twig → Prop} (h : Each (fun t vs => Faithful (q t) [t] vs) ts us) :
    Faithful (∀ t ∈ ts, q t) ts us := by
  induction h with
  | nil =>
    have hnil : Faithful True [] [] := refl trivial
    exact hnil.congr (by simp)
  | cons head _ ih => exact (head.append ih).congr List.forall_mem_cons.symm

end Faithful

end Stylesheet.Selector
