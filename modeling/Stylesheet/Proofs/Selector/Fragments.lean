import Stylesheet.Selector.MergeNames
import Stylesheet.Proofs.Document.Enclosed
import Stylesheet.Proofs.Reader.Table
import Stylesheet.Proofs.Selector.Induction
import Stylesheet.Proofs.Text.Split
import Stylesheet.Proofs.Text.Trim

/-!
# Names and fragments

A selector is written by its name and taken apart by its fragments. The fragments are the parts of the name between its
commas, when the selector is read, and they are kept beside the name from then on.

They cannot come to differ. The fragments of two names that are joined by a comma are those of the one and of the other,
if the first name is closed (`fragmentsOf_append_comma`), and a fragment is its own only fragment
(`fragmentsOf_of_mem`). So they fit whatever is read, and after each of the passes over selectors
(`fragments_fit_names`).
-/

open List

namespace Stylesheet.Selector

open Document Text
open Reader.State (fragmentsOf)

/-! ## Fragments of a name -/

theorem isInert_comma : IsInert ',' := ⟨rfl, by decide⟩

/-- The parts without the white space at their ends, but for those that are empty then. -/
def trimmedParts (parts : List (List Char)) : List String :=
  (parts.map fun part => String.ofList (trimBoth isSpace part)).filter (!·.isEmpty)

theorem trimmedParts_append (parts more : List (List Char)) :
    trimmedParts (parts ++ more) = trimmedParts parts ++ trimmedParts more := by
  rw [trimmedParts, map_append, filter_append]
  rfl

theorem fragmentsOf_eq (name : String) : fragmentsOf name = trimmedParts (splitFrom ',' .outside name.toList) := by
  have hsplit : fragmentsOf name = trimmedParts (splitChars ',' name.toList) := by
    simp [fragmentsOf, trimmedParts, split, trim, Function.comp_def]
  rw [hsplit, splitChars]
  split
  · next hnone =>
    rcases Bool.or_eq_true_iff.mp hnone with hnil | hcomma
    · rw [isEmpty_iff.mp hnil]
      rfl
    · rw [beq_iff_eq.mp hcomma]
      rfl
  · rfl

theorem toList_append_comma (x y : String) : (x ++ "," ++ y).toList = x.toList ++ ',' :: y.toList := by
  have hcomma : ",".toList = [','] := rfl
  simp [hcomma]

/-- **The fragments of a list of selectors** are those of its two sides, if the first side is closed. -/
theorem fragmentsOf_append_comma {x : String} (hx : Closed x) (y : String) :
    fragmentsOf (x ++ "," ++ y) = fragmentsOf x ++ fragmentsOf y := by
  obtain ⟨front, last, hsplit, happend⟩ := exists_splitFrom_append ',' .outside x.toList
  have hparts : splitFrom ',' .outside (x ++ "," ++ y).toList
      = splitFrom ',' .outside x.toList ++ splitFrom ',' .outside y.toList := by
    rw [toList_append_comma, happend, hx, splitFrom_sep isInert_comma, hsplit]
    simp
  rw [fragmentsOf_eq, hparts, trimmedParts_append, ← fragmentsOf_eq, ← fragmentsOf_eq]

theorem closed_append_comma {x y : String} (hx : Closed x) (hy : Closed y) : Closed (x ++ "," ++ y) := by
  rw [Closed, toList_append_comma, Nesting.after_append, hx, Nesting.after_cons, isInert_comma.next_outside]
  exact hy

/-- **A fragment is its own only fragment.** -/
theorem fragmentsOf_of_mem {name fragment : String} (h : fragment ∈ fragmentsOf name) :
    fragmentsOf fragment = [fragment] := by
  rw [fragmentsOf_eq] at h
  obtain ⟨hmem, hne⟩ := mem_filter.mp h
  obtain ⟨part, hpart, rfl⟩ := mem_map.mp hmem
  have hwhole := (separated_outside_iff.mp (separated_splitFrom isInert_comma .outside name.toList)).1 part hpart
  obtain ⟨left, right, hsplit, hleft, -⟩ := exists_trimBoth isSpace part
  -- the white space in front of the fragment opens nothing
  have hspace : ∀ c ∈ left, IsInert c ∧ c ≠ ',' := by
    refine fun c hc => ⟨isInert_of_isSpace (hleft c hc), ?_⟩
    rintro rfl
    exact absurd (hleft _ hc) (by decide)
  rw [hsplit] at hwhole
  have hcore := (whole_append.mp (whole_append.mp hwhole).1).2
  rw [(whole_of_isInert hspace).2] at hcore
  rw [fragmentsOf_eq, String.toList_ofList, hcore, trimmedParts, map_singleton,
    (trimmed_trimBoth isSpace part).trimBoth_eq]
  exact filter_cons_of_pos hne

/-! ## Passes over a closed set of blocks -/

variable {d : Document} {R : BlockId → Prop} {P : String → BlockKind → Prop}

theorem visits_enclosed : Visits (fun d => d.Enclosed R P) R :=
  fun _ _ _ hd hparent hid => hd.of_mem_childBlocks hparent hid

theorem discardFrom_enclosed (h : d.Enclosed R P) (depth : Nat) (parent : BlockId) :
    (discardFrom depth d parent).1.Enclosed R P :=
  discardFrom_induction (I := fun d => d.Enclosed R P) (fun _ parent id hd => hd.remove parent id) h depth parent

theorem moveInto_enclosed (h : d.Enclosed R P) {parent id target : BlockId} {b : Block} (hb : b.Within R P) :
    (moveInto d parent id target b).Enclosed R P :=
  ((h.detach parent id).vacate id).modify target fun _ ht => ⟨ht.label, ht.inside_append hb⟩

/-- While blocks are merged, those that are kept belong to the set. -/
structure Merging.Enclosed (m : Merging) (R : BlockId → Prop) (P : String → BlockKind → Prop) : Prop where
  document : m.document.Enclosed R P
  kept : ∀ id ∈ m.kept, R id

theorem Merging.Enclosed.add {m : Merging} (h : m.Enclosed R P) (parent : BlockId) {id : BlockId} (hid : R id) :
    (m.add parent id).Enclosed R P := by
  unfold Merging.add
  split
  · exact h
  · next b hget =>
    split
    · exact h
    · split
      · refine ⟨h.document, fun x hx => ?_⟩
        rcases mem_append.mp hx with hx | hx
        · exact h.kept x hx
        · rwa [mem_singleton.mp hx]
      · exact ⟨moveInto_enclosed h.document (h.document.within id b hid hget), h.kept⟩

theorem mergeNamesFrom_enclosed (h : d.Enclosed R P) (depth : Nat) {parent : BlockId} (hparent : R parent) :
    (mergeNamesFrom depth d parent).Enclosed R P := by
  induction depth generalizing d parent with
  | zero => exact ⟨h, fun id hid => absurd hid not_mem_nil⟩
  | succ depth ih =>
    have hstart : Merging.Enclosed { document := d } R P := ⟨h, fun id hid => absurd hid not_mem_nil⟩
    have hmerged : ((d.childBlocks parent).foldl (Merging.add parent) { document := d }).Enclosed R P :=
      foldlRecOn (motive := fun m : Merging => m.Enclosed R P) _ _ hstart
        fun m hm id hid => hm.add parent (h.of_mem_childBlocks hparent hid)
    rw [mergeNamesFrom]
    refine foldlRecOn (motive := fun m : Merging => m.Enclosed R P) _ _ hmerged fun m hm id hid => ?_
    split
    · exact ⟨(ih hm.document (hmerged.kept id hid)).document, hm.kept⟩
    · exact hm

theorem groupFrom_enclosed
    (hjoin : ∀ g b : Block, b.isSelector = true → P g.name g.kind → P b.name b.kind →
      P (g.addSelectors b.name b.fragments).name (g.addSelectors b.name b.fragments).kind)
    (adjacent : Bool) (h : d.Enclosed R P) (depth : Nat) {parent : BlockId} (hparent : R parent) :
    (groupFrom adjacent depth d parent).1.Enclosed R P := by
  refine groupFrom_induction (I := fun d => d.Enclosed R P) (fun d parent group id b hd hid hget hselector => ?_)
    visits_enclosed adjacent h depth hparent
  have hb := hd.within id b hid hget
  exact (hd.remove parent id).modify group fun g hg =>
    ⟨hjoin g b hselector hg.label hb.label, hg.inside_append hb⟩

theorem separateFrom_enclosed
    (hpart : ∀ b : Block, P b.name b.kind → ∀ fragment ∈ b.fragments, P fragment (.selector [fragment]))
    (h : d.Enclosed R P) (depth : Nat) {parent : BlockId} (hparent : R parent) :
    (separateFrom depth d parent).Enclosed R P := by
  refine separateFrom_induction (I := fun d => d.Enclosed R P) (Q := Block.Within R P) visits_enclosed
    (fun _ parent id hd => hd.remove parent id) (fun _ parent i _ hd hb => hd.insertBlockAt parent i hb)
    (fun d id b hd hid hget => ?_) h depth hparent
  have hb := hd.within id b hid hget
  refine forall_mem_map.mpr fun ⟨fragment, i⟩ hmem => ?_
  refine ⟨hpart b hb.label fragment (fst_mem_of_mem_zipIdx hmem), fun x hx => hb.inside x ?_⟩
  -- the first part has the children of the selector, the others have none
  dsimp only at hx
  split at hx
  · exact hx
  · cases hx

/-! ## Names that fit -/

/-- The fragments of a selector are those of its name. -/
def Fits (name : String) (kind : BlockKind) : Prop :=
  ∀ fragments, kind = .selector fragments → fragments = fragmentsOf name

/-- The fragments of a selector are those of its name, and the name is closed. -/
def FitsClosed (name : String) (kind : BlockKind) : Prop :=
  ∀ fragments, kind = .selector fragments → Closed name ∧ fragments = fragmentsOf name

theorem FitsClosed.fits {name : String} {kind : BlockKind} (h : FitsClosed name kind) : Fits name kind :=
  fun fragments hkind => (h fragments hkind).2

theorem kind_eq_selector {b : Block} (h : b.isSelector = true) : b.kind = .selector b.fragments := by
  unfold Block.isSelector at h
  unfold Block.fragments
  cases hkind : b.kind with
  | selector fragments => rfl
  | atBlock =>
    rw [hkind] at h
    cases h

theorem FitsClosed.addSelectors (g b : Block) (hselector : b.isSelector = true) (hg : FitsClosed g.name g.kind)
    (hb : FitsClosed b.name b.kind) :
    FitsClosed (g.addSelectors b.name b.fragments).name (g.addSelectors b.name b.fragments).kind := by
  obtain ⟨hclosed, hfragments⟩ := hb b.fragments (kind_eq_selector hselector)
  intro fragments hkind
  cases hold : g.kind with
  | atBlock => simp [Block.addSelectors, hold] at hkind
  | selector old =>
    obtain ⟨hname, rfl⟩ := hg old hold
    have hjoined : fragments = fragmentsOf g.name ++ fragmentsOf b.name := by
      simpa [Block.addSelectors, hold, hfragments, eq_comm] using hkind
    rw [hjoined, ← fragmentsOf_append_comma hname]
    exact ⟨closed_append_comma hname hclosed, rfl⟩

theorem Fits.fragment (b : Block) (h : Fits b.name b.kind) :
    ∀ fragment ∈ b.fragments, Fits fragment (.selector [fragment]) := by
  intro fragment hmem fragments hkind
  cases hkind
  cases hold : b.kind with
  | atBlock => simp [Block.fragments, hold] at hmem
  | selector old =>
    rw [Block.fragments, hold, h old hold] at hmem
    exact (fragmentsOf_of_mem hmem).symm

end Stylesheet.Selector

namespace Stylesheet.Reader

open State (fragmentsOf)

variable {P : String → BlockKind → Prop}

/-- What holds for at-rules, and for selectors with the fragments of their names, holds for all blocks that are read. -/
theorem read_enclosed (o : Options) (css : String) (hat : ∀ name, P name .atBlock)
    (hselector : ∀ name, P name (.selector (fragmentsOf name))) :
    (Document.read o css).1.Enclosed (fun _ => True) P := by
  refine read_induction css (P := fun s => s.document.Enclosed (fun _ => True) P) ?_ fun _ _ hedit hs => ?_
  · refine ⟨?_, fun _ _ => trivial⟩
    rintro ⟨index⟩ b - hget
    cases index with
    | zero =>
      rw [← Option.some.inj hget]
      exact ⟨hat _, fun _ _ => trivial⟩
    | succ index => simp [start, Document.get?, Document.empty] at hget
  · refine hedit.keeps (I := fun d => d.Enclosed (fun _ => True) P) ?_ ?_ ?_ ?_ hs
    · exact fun _ _ hblocks hd => hd.congr hblocks
    · exact fun _ id _ _ hd => hd.modify id fun _ hb => ⟨hb.label, fun _ _ => trivial⟩
    · exact fun _ id _ _ _ hd => hd.modify id fun _ hb => ⟨hb.label, fun _ _ => trivial⟩
    · rintro d id name _ (rfl | rfl) hd
      · exact hd.addBlock id ⟨hat name, fun _ _ => trivial⟩
      · exact hd.addBlock id ⟨hselector name, fun _ _ => trivial⟩

end Stylesheet.Reader

namespace Stylesheet.Selector

open Document Text

/-- **Names and fragments never differ.** The reader gives every selector the fragments of its name. If all selectors of
a tree have closed names that fit, they have them after blocks are merged by name, after selectors are grouped and after
malformed ones are discarded. They still fit where selectors are taken apart, though the name of a part need not be
closed. -/
theorem fragments_fit_names :
    (∀ d : Document, d.Labelled FitsClosed →
      (mergeNames d root).1.Labelled FitsClosed ∧ (∀ adjacent, (groupEqual adjacent d root).1.Labelled FitsClosed) ∧
      (discardInvalid d root).1.Labelled FitsClosed ∧ (separate d root).Labelled Fits) ∧
    ∀ o css id b, (Document.read o css).1.get? id = some b → Fits b.name b.kind := by
  refine ⟨fun d h => ?_, fun o css id b hget => ?_⟩
  · have hclosed := h.enclosed
    have hfits : d.Labelled Fits := fun id b hid hget => (h id b hid hget).fits
    refine ⟨?_, fun adjacent => ?_, ?_, ?_⟩
    · exact (mergeNamesFrom_enclosed hclosed _ (.inl .refl)).document.labelled (.inl .refl)
    · exact (groupFrom_enclosed FitsClosed.addSelectors adjacent hclosed _ (.inl .refl)).labelled (.inl .refl)
    · exact (discardFrom_enclosed hclosed _ _).labelled (.inl .refl)
    · exact (separateFrom_enclosed Fits.fragment hfits.enclosed _ (.inl .refl)).labelled (.inl .refl)
  · have hread : (Document.read o css).1.Enclosed (fun _ => True) Fits := by
      refine Reader.read_enclosed o css (fun name fragments hkind => ?_) fun name fragments hkind => ?_
      · cases hkind
      · cases hkind
        rfl
    exact (hread.within id b trivial hget).label

example : Closed "a\\ , b" ∧ Reader.State.fragmentsOf "a\\ , b" = ["a\\", "b"] ∧ ¬ Closed "a\\" := by decide

/-- Two selectors with equal declarations. The first is a group, and not every comma in its name is free. -/
def twoGroups : Document where
  blocks := #[
    some { name := "", kind := .atBlock, children := [.block ⟨1⟩, .block ⟨2⟩] },
    some
      { name := ":is(a,b), c"
        kind := .selector [":is(a,b)", "c"]
        declarations := .ofList [("top", ⟨"0", false⟩)] },
    some { name := "d", kind := .selector ["d"], declarations := .ofList [("top", ⟨"0", false⟩)] }]

theorem labelled_twoGroups : twoGroups.Labelled FitsClosed := by
  intro id b _ hget
  have hmem := mem_liveBlocks.mpr ⟨id, hget⟩
  simp only [liveBlocks, twoGroups, filterMap_cons, filterMap_nil, id_eq, mem_cons, not_mem_nil, or_false] at hmem
  rcases hmem with rfl | rfl | rfl <;> rintro _ ⟨⟩ <;> decide

theorem fragments_fit_names_twoGroups :
    twoGroups.Labelled FitsClosed ∧ (groupEqual false twoGroups root).1.Labelled FitsClosed ∧
      (separate twoGroups root).Labelled Fits ∧
      ((groupEqual false twoGroups root).1.get? ⟨1⟩).map (fun b => (b.name, b.fragments))
        = some (":is(a,b), c,d", [":is(a,b)", "c", "d"]) ∧
      ((separate twoGroups root).siblings root).map (fun b => (b.name, b.fragments))
        = [(":is(a,b)", [":is(a,b)"]), ("c", ["c"]), ("d", ["d"])] := by
  obtain ⟨-, hgroup, -, hseparate⟩ := fragments_fit_names.1 twoGroups labelled_twoGroups
  exact ⟨labelled_twoGroups, hgroup false, hseparate, by decide +kernel, by decide +kernel⟩

end Stylesheet.Selector
