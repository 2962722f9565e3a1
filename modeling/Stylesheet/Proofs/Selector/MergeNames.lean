import Stylesheet.Selector.MergeNames
import Stylesheet.Proofs.Declarations.Order
import Stylesheet.Proofs.Document.Rework
import Stylesheet.Proofs.Selector.Condense
import Stylesheet.Proofs.Selector.Faithful
import Stylesheet.Proofs.Selector.Fold

/-!
# Putting blocks of one name together

A block that is put into an earlier one of its name hands over its children as they are, before its place in the table
becomes vacant. So nothing is lost here, whatever the blocks hold (`Retains`), and the earlier block is the home of the
one that is gone (`Folds`). The earlier block stands anywhere among those that have been dealt with, which is why this
pass is not one that changes each child in its turn.
-/

namespace Stylesheet

open Twig Document List Head

namespace Strict

open Selector

/-- Puts one child of a block into an earlier one, and fails if a block that is looked up is gone. -/
def addKept (parent : BlockId) (m : Merging) (id : BlockId) : Option Merging := do
  let b ← m.document.get? id
  if b.isFontFace then return m
  else
    match ← m.document.firstBlock? (sameName b) m.kept with
    | none => return m.add parent id
    | some target =>
      let _ ← ((m.document.detach parent id).vacate id).get? target
      return m.add parent id

/-- Merges by name, and fails if a block that is looked up is gone or the descent is cut short. -/
def mergeNamesFrom : Nat → Document → BlockId → Option Merging
  | 0, _, _ => none
  | depth + 1, d, parent => do
    let m ← (← d.listedBlocks? parent).foldlM (addKept parent) { document := d }
    m.kept.foldlM (fun m id => do
      let b ← m.document.get? id
      if b.isAtBlock then
        let inner ← mergeNamesFrom depth m.document id
        return { m with
          document := inner.document, merged := m.merged ++ inner.merged, log := m.log ++ inner.log }
      else return m) m

end Strict

namespace Head

def isFontFace (h : Head) : Bool := (h.block []).isFontFace

@[simp] theorem isFontFace_block (h : Head) (children : List Child) : (h.block children).isFontFace = h.isFontFace := rfl

/-- The heads are those of blocks that are put together: of one name and kind, and not declaring a font. -/
def sameNamed (h h' : Head) : Bool := !h.isFontFace && h.name == h'.name && h.isSelector == h'.isSelector

variable {h h' h'' : Head}

theorem isFontFace_congr (hname : h.name = h'.name) (hkind : h.isSelector = h'.isSelector) :
    h.isFontFace = h'.isFontFace := by
  have hfont (h : Head) : h.isFontFace = (!h.isSelector && Text.startsWith (Text.lower h.name) "@font-face") := rfl
  rw [hfont, hfont, hname, hkind]

theorem sameNamed_iff : h.sameNamed h' = true ↔ h.isFontFace = false ∧ h.name = h'.name ∧ h.isSelector = h'.isSelector := by
  simp [sameNamed, and_assoc]

section

variable (hsame : h.sameNamed h' = true)
include hsame

theorem not_isFontFace : h.isFontFace = false := (sameNamed_iff.mp hsame).1

theorem sameNamed_symm : h'.sameNamed h = true := by
  obtain ⟨hfont, hname, hkind⟩ := sameNamed_iff.mp hsame
  exact sameNamed_iff.mpr ⟨(isFontFace_congr hname hkind).symm.trans hfont, hname.symm, hkind.symm⟩

theorem sameNamed_trans (hsame' : h'.sameNamed h'' = true) : h.sameNamed h'' = true := by
  obtain ⟨hfont, hname, hkind⟩ := sameNamed_iff.mp hsame
  obtain ⟨-, hname', hkind'⟩ := sameNamed_iff.mp hsame'
  exact sameNamed_iff.mpr ⟨hfont, hname.trans hname', hkind.trans hkind'⟩

theorem sameName_of_sameNamed {children children' : List Child} :
    Selector.sameName (h'.block children') (h.block children) = true := by
  obtain ⟨-, hname, hkind⟩ := sameNamed_iff.mp hsame
  simp [Selector.sameName, hname, hkind]

end

end Head

namespace Declarations

variable {d e : Declarations} {property : String}

theorem contains_merge (he : ∀ x ∈ e.entries, x.2.text ≠ "") :
    (d.merge e).contains property = true ↔ d.contains property = true ∨ e.contains property = true := by
  have htexts : texts e.entries = e.entries := filter_eq_self.mpr fun x hx => by simpa using he x hx
  have hkept : (d.merge e).contains property = true ↔ given (d.entries ++ e.entries) property ≠ [] := by
    rw [contains_iff_get?, merge, get?_insertAll, htexts, ← Option.ne_none_iff_exists', Ne, winner_eq_none_iff]
  rw [hkept, Ne, given_eq_nil_iff]
  simp only [contains_iff_mem, mem_append, mem_map, Prod.exists]
  grind

theorem text_ne_of_mem_merge (hd : ∀ x ∈ d.entries, x.2.text ≠ "") : ∀ x ∈ (d.merge e).entries, x.2.text ≠ "" := by
  suffices hall : ∀ (l : List Declaration) (d : Declarations), (∀ x ∈ d.entries, x.2.text ≠ "") →
      ∀ x ∈ (d.insertAll l).entries, x.2.text ≠ "" from hall e.entries d hd
  intro l
  induction l with
  | nil => exact fun d hd => hd
  | cons y l ih => exact fun d hd => ih (d.insert y.1 y.2) fun x hx => text_ne_of_mem_insert hd hx

end Declarations

namespace Selector

/-! ## Nothing is lost -/

/-- Every value in the blocks of the twigs has a text. -/
def Spelled (ts : List Twig) : Prop := ∀ e ∈ entriesOf ts, ∀ x ∈ e.2.declarations.entries, x.2.text ≠ ""

theorem spelled_append {ts us : List Twig} : Spelled (ts ++ us) ↔ Spelled ts ∧ Spelled us := by
  rw [Spelled, entriesOf_append, forall_mem_append]
  rfl

theorem spelled_cons_block {id : BlockId} {hd : Head} {cs ts : List Twig} : Spelled (.block id hd cs :: ts) ↔
    ((∀ x ∈ hd.declarations.entries, x.2.text ≠ "") ∧ Spelled cs) ∧ Spelled ts := by
  rw [Spelled, entriesOf, entries, forall_mem_append, forall_mem_cons]
  rfl

theorem spelled_block {id : BlockId} {hd : Head} {cs : List Twig} :
    Spelled [.block id hd cs] ↔ (∀ x ∈ hd.declarations.entries, x.2.text ≠ "") ∧ Spelled cs := by
  rw [spelled_cons_block]
  simp [Spelled, entriesOf]

/-- The second twigs have all that the first have, in no more blocks. Values without a text do not count. -/
structure Retains (ts us : List Twig) : Prop where
  sound : SoundOf ts → SoundOf us
  lost_iff : lostOf us = [] ↔ lostOf ts = []
  covers : Spelled ts → Covers ts us
  spelled : Spelled ts → Spelled us
  length_le : (entriesOf us).length ≤ (entriesOf ts).length

namespace Retains

variable {ts us vs ts' us' cs cs' : List Twig}

theorem refl (ts : List Twig) : Retains ts ts := ⟨id, Iff.rfl, fun _ => .refl ts, id, Nat.le_refl _⟩

theorem trans (h : Retains ts us) (h' : Retains us vs) : Retains ts vs where
  sound hts := h'.sound (h.sound hts)
  lost_iff := h'.lost_iff.trans h.lost_iff
  covers hts := (h.covers hts).trans (h'.covers (h.spelled hts))
  spelled hts := h'.spelled (h.spelled hts)
  length_le := Nat.le_trans h'.length_le h.length_le

theorem append (h : Retains ts us) (h' : Retains ts' us') : Retains (ts ++ ts') (us ++ us') where
  sound hts := soundOf_append.mpr ⟨h.sound (soundOf_append.mp hts).1, h'.sound (soundOf_append.mp hts).2⟩
  lost_iff := by simp only [lostOf_append, append_eq_nil_iff, h.lost_iff, h'.lost_iff]
  covers hts := (h.covers (spelled_append.mp hts).1).append (h'.covers (spelled_append.mp hts).2)
  spelled hts := spelled_append.mpr ⟨h.spelled (spelled_append.mp hts).1, h'.spelled (spelled_append.mp hts).2⟩
  length_le := by
    simp only [entriesOf_append, length_append]
    exact Nat.add_le_add h.length_le h'.length_le

/-- What is done inside of an at-rule. -/
theorem inside {id : BlockId} {hd : Head} (h : Retains cs cs') (hat : hd.isAtBlock = true) :
    Retains [.block id hd cs] [.block id hd cs'] where
  sound hts := ⟨fun _ => h.sound (hts.1 hat), trivial⟩
  lost_iff := by simp [lostOf, lost, h.lost_iff]
  covers hts := .block (h.covers (spelled_block.mp hts).2) fun hat => ⟨hat, rfl, fun _ hp => hp⟩
  spelled hts := spelled_block.mpr ⟨(spelled_block.mp hts).1, h.spelled (spelled_block.mp hts).2⟩
  length_le := by simpa [entriesOf, entries] using h.length_le

theorem faithful (h : Retains ts us) (hsound : SoundOf ts) (hspelled : Spelled ts) : Faithful True ts us :=
  ⟨h.sound hsound, h.lost_iff.trans (and_iff_left trivial).symm, fun _ => h.covers hspelled⟩

end Retains

/-! ## One block put into another -/

variable {m : Merging}
variable {d : Document} {parent id target : BlockId} {h hd th : Head} {ts left mid right cs tcs : List Twig}
  {rest : List (BlockId × Block)}

/-- The head of a block that takes over the declarations of another. -/
def absorbed (th hd : Head) : Head := { th with declarations := th.declarations.merge hd.declarations }

/-- Between the two steps, the earlier block is still there. -/
theorem exact_vacate_detach
    (hb : d.Bears parent h (left ++ .block target th tcs :: (mid ++ .block id hd cs :: right)) rest) :
    ((d.detach parent id).vacate id).Exact ((target, th.block (tcs.map child)) ::
      ((parent, h.block ((left ++ .block target th tcs :: (mid ++ right)).map child)) ::
        (entriesOf left ++ entriesOf tcs ++ entriesOf cs ++ entriesOf mid ++ entriesOf right ++ rest))) := by
  have hfirst : d.Bears parent h ((left ++ .block target th tcs :: mid) ++ .block id hd cs :: right) rest := by
    simpa using hb
  have hvacated := hfirst.detach.vacate
  rw [append_assoc, cons_append] at hvacated
  refine hvacated.perm (perm_iff_count.mpr fun e => ?_)
  simp only [entriesOf_append, entriesOf, entries, count_cons, count_append, cons_append]
  ring

theorem moveInto_becomes
    (hb : d.Bears parent h (left ++ .block target th tcs :: (mid ++ .block id hd cs :: right)) rest) :
    d.Becomes (moveInto d parent id target (hd.block (cs.map child))) parent h
      (left ++ .block target (absorbed th hd) (tcs ++ cs) :: (mid ++ right)) rest := by
  have hleads : d.Leads (moveInto d parent id target (hd.block (cs.map child))) :=
    ((leads_modify d parent _).trans (leads_vacate _ id)).trans (leads_modify _ target _)
  refine ⟨hleads, ?_, fun x hx => (hb.spent x ?_).leads hleads⟩
  · have hmodified := (exact_vacate_detach hb).modify fun t =>
      { t with
        declarations := t.declarations.merge (hd.block (cs.map child)).declarations
        children := t.children ++ (hd.block (cs.map child)).children }
    have hblock : ({ th.block (tcs.map child) with
        declarations := (th.block (tcs.map child)).declarations.merge (hd.block (cs.map child)).declarations
        children := (th.block (tcs.map child)).children ++ (hd.block (cs.map child)).children } : Block)
          = (absorbed th hd).block ((tcs ++ cs).map child) := by
      simp [Head.block, absorbed]
    have hsame : (left ++ .block target th tcs :: (mid ++ right)).map child
        = (left ++ .block target (absorbed th hd) (tcs ++ cs) :: (mid ++ right)).map child := by
      simp [child]
    rw [hblock, hsame] at hmodified
    refine hmodified.perm (perm_iff_count.mpr fun e => ?_)
    simp only [entriesOf_append, entriesOf, entries, count_cons, count_append, cons_append]
    ring
  · simp only [lostOf_append, lostOf, lost, mem_append] at hx ⊢
    tauto

/-- The earlier block has all that the two had. -/
theorem moveInto_retains (hsame : sameName (hd.block (cs.map child)) (th.block (tcs.map child)) = true) :
    Retains (left ++ .block target th tcs :: (mid ++ [.block id hd cs]))
      (left ++ .block target (absorbed th hd) (tcs ++ cs) :: mid) := by
  obtain ⟨hname, hkind⟩ : hd.name = th.name ∧ hd.isSelector = th.isSelector := by simpa [sameName] using hsame
  have hat : hd.isAtBlock = th.isAtBlock := by rw [isAtBlock_eq, isAtBlock_eq, hkind]
  -- the entries other than those of the two blocks are still there
  have hentries (e : BlockId × Block) : e ∈ entriesOf (left ++ .block target th tcs :: (mid ++ [.block id hd cs])) →
      e = (target, th.block (tcs.map child)) ∨ e = (id, hd.block (cs.map child)) ∨
        e ∈ entriesOf (left ++ .block target (absorbed th hd) (tcs ++ cs) :: mid) := by
    simp only [entriesOf_append, entriesOf, entries, cons_append, append_nil, mem_append, mem_cons]
    tauto
  refine ⟨fun hts => ?_, ?_, fun hts => ?_, fun hts => ?_, ?_⟩
  · simp only [soundOf_append, SoundOf] at hts ⊢
    obtain ⟨hleft, htarget, hmid, hid, -⟩ := hts
    exact ⟨hleft, fun hth => soundOf_append.mpr ⟨htarget hth, hid (hat.trans hth)⟩, hmid⟩
  · simp only [lostOf_append, lostOf, lost, append_nil, append_eq_nil_iff]
    tauto
  · have hmerged {property : String} : (absorbed th hd).declarations.contains property = true ↔
        th.declarations.contains property = true ∨ hd.declarations.contains property = true :=
      Declarations.contains_merge (hts (id, hd.block (cs.map child)) (by simp [entriesOf, entries]))
    have hself : (target, (absorbed th hd).block ((tcs ++ cs).map child))
        ∈ entriesOf (left ++ .block target (absorbed th hd) (tcs ++ cs) :: mid) := by simp [entriesOf, entries]
    intro e he hkind
    rcases hentries e he with rfl | rfl | he
    · exact ⟨_, hself, hkind, rfl, fun _ hp => hmerged.mpr (.inl hp)⟩
    · exact ⟨_, hself, hat.symm.trans hkind, hname.symm, fun _ hp => hmerged.mpr (.inr hp)⟩
    · exact ⟨e, he, hkind, rfl, fun _ hp => hp⟩
  · simp only [spelled_append, spelled_cons_block] at hts ⊢
    obtain ⟨hleft, ⟨htarget, htcs⟩, hmid, ⟨-, hcs⟩, -⟩ := hts
    exact ⟨hleft, ⟨Declarations.text_ne_of_mem_merge htarget, htcs, hcs⟩, hmid⟩
  · simp only [entriesOf_append, entriesOf, entries, length_append, length_cons]
    omega

/-! ## Blocks of one name -/

/-- The twigs are blocks that are put together. -/
def ofOneName : Twig → Twig → Bool
  | .block _ h _, .block _ h' _ => h.sameNamed h'
  | _, _ => false

/-- The first block with all that the second one has. -/
def absorb : Twig → Twig → Twig
  | .block id h cs, .block _ h' cs' => .block id (absorbed h h') (cs ++ cs')
  | t, _ => t

theorem likens_sameNamed : Likens sameNamed absorbed where
  symm _ _ := sameNamed_symm
  trans _ _ _ := sameNamed_trans
  like_take _ _ _ := rfl

/-- The twig is a block that may be put together with others. -/
def isNamed : Twig → Bool
  | .block _ h _ => !h.isFontFace
  | _ => false

/-- The blocks among the twigs that may be put together with others. -/
def namedIds (ts : List Twig) : List BlockId := idsOf (ts.filter isNamed)

@[simp] theorem namedIds_append (ts us : List Twig) : namedIds (ts ++ us) = namedIds ts ++ namedIds us := by
  simp [namedIds]

theorem namedIds_cons_block (hfont : hd.isFontFace = false) : namedIds (.block id hd cs :: ts) = id :: namedIds ts := by
  simp [namedIds, isNamed, hfont]

theorem mem_namedIds {x : BlockId} (h : x ∈ namedIds ts) : ∃ th tcs, .block x th tcs ∈ ts ∧ th.isFontFace = false := by
  rcases mem_idsOf h with ⟨th, tcs, hmem⟩ | hmem
  · obtain ⟨hmem, hnamed⟩ := mem_filter.mp hmem
    exact ⟨th, tcs, hmem, by simpa [isNamed] using hnamed⟩
  · exact absurd (mem_filter.mp hmem).2 Bool.false_ne_true

/-- A block that is like none of the twigs has the name of none of them. -/
theorem find?_namedIds (hb : d.Bears parent h ts rest) (hsub : left ⊆ ts)
    (hunlike : ∀ t ∈ left, ofOneName t (.block id hd cs) = false) :
    (namedIds left).find? (fun x => (d.get? x).any (sameName (hd.block (cs.map child)))) = none := by
  rw [find?_eq_none]
  intro x hx
  obtain ⟨th, tcs, hmem, hfont⟩ := mem_namedIds hx
  rw [hb.get?_of_mem (hsub hmem), Option.any_some]
  intro hsame
  obtain ⟨hname, hkind⟩ : hd.name = th.name ∧ hd.isSelector = th.isSelector := by simpa [sameName] using hsame
  have hlike : th.sameNamed hd = true := sameNamed_iff.mpr ⟨hfont, hname.symm, hkind.symm⟩
  exact Bool.false_ne_true ((hunlike _ hmem).symm.trans hlike)

/-- The first block has all that the two had. -/
theorem takeIn_retains (t : Twig) (ts : List Twig) : Retains (ts ++ [t]) (takeIn ofOneName absorb t ts) := by
  rcases takeIn_cases ofOneName absorb t ts with ⟨-, htake⟩ | ⟨left, u, right, rfl, -, hlike, htake⟩
  · rw [htake]
    exact .refl _
  · rw [htake]
    cases u with
    | block target th tcs =>
      cases t with
      | block id hd cs => simpa [absorb] using moveInto_retains (sameName_of_sameNamed hlike)
      | _ => cases hlike
    | _ => cases hlike

theorem condense_retains (ts : List Twig) : Retains ts (condense ofOneName absorb ts) := by
  induction ts using reverseRecOn with
  | nil => exact .refl _
  | append_singleton ts t ih =>
    rw [condense_concat]
    exact (ih.append (.refl [t])).trans (takeIn_retains t _)

/-! ## All children of a block -/

/-- What comes of one more child: the first twigs are what has been looked at. -/
structure Added (m : Merging) (parent id : BlockId) (h : Head) (left right : List Twig) (rest : List (BlockId × Block)) :
    Prop where
  strict : Strict.addKept parent m id = some (m.add parent id)
  becomes : m.document.Becomes (m.add parent id).document parent h (left ++ right) rest
  kept : (m.add parent id).kept = namedIds left
  folds : m.document.Folds (m.add parent id).document

theorem added_of_isFontFace (hb : m.document.Bears parent h (left ++ .block id hd cs :: right) rest)
    (hkept : m.kept = namedIds left) (hfont : hd.isFontFace = true) :
    Added m parent id h (left ++ [.block id hd cs]) right rest := by
  have hget : m.document.get? id = some (hd.block (cs.map child)) := hb.enter.get?_parent
  have hadd : m.add parent id = m := by
    rw [Merging.add, hget]
    exact if_pos hfont
  rw [append_cons] at hb
  refine ⟨?_, ?_, ?_, ?_⟩
  · rw [hadd, Strict.addKept, hget]
    exact if_pos hfont
  · rw [hadd]
    exact .refl hb
  · rw [hadd]
    simpa [namedIds, isNamed, hfont] using hkept
  · rw [hadd]
    exact .refl _

/-- The kept blocks are all there, so looking for one of them gives the first of the name. -/
theorem firstBlock?_kept (hb : m.document.Bears parent h ts rest) (hsub : left ⊆ ts)
    (hkept : m.kept = namedIds left) (b : Block) : m.document.firstBlock? (sameName b) m.kept =
      some (m.kept.find? fun x => (m.document.get? x).any (sameName b)) := by
  refine firstBlock?_eq fun x hx => ?_
  obtain ⟨th, tcs, hmem, -⟩ := mem_namedIds (hkept ▸ hx)
  rw [isLive, hb.get?_of_mem (hsub hmem)]
  rfl

/-- The first block of a name is kept. -/
theorem added_of_unlike (hb : m.document.Bears parent h (left ++ .block id hd cs :: right) rest)
    (hkept : m.kept = namedIds left) (hfont : hd.isFontFace = false)
    (hunlike : ∀ t ∈ left, ofOneName t (.block id hd cs) = false) :
    Added m parent id h (left ++ [.block id hd cs]) right rest := by
  have hget : m.document.get? id = some (hd.block (cs.map child)) := hb.enter.get?_parent
  have hnone := find?_namedIds hb (subset_append_left _ _) hunlike
  rw [← hkept] at hnone
  have hadd : m.add parent id = { m with kept := m.kept ++ [id] } := by
    rw [Merging.add, hget]
    simp only [isFontFace_block, hfont, Bool.false_eq_true, if_false, hnone]
  refine ⟨?_, ?_, ?_, ?_⟩
  · simp only [Strict.addKept, hget, Option.bind_eq_bind, Option.bind_some, isFontFace_block, hfont, Bool.false_eq_true,
      if_false, firstBlock?_kept hb (subset_append_left _ _) hkept, hnone, hadd]
    rfl
  · rw [hadd]
    exact .refl (by rwa [← append_cons])
  · rw [hadd, namedIds_append, namedIds_cons_block hfont, hkept]
    rfl
  · rw [hadd]
    exact .refl _

/-- A later block of a name is put into the first one. -/
theorem added_of_like
    (hb : m.document.Bears parent h (left ++ .block target th tcs :: mid ++ .block id hd cs :: right) rest)
    (hkept : m.kept = namedIds (left ++ .block target th tcs :: mid))
    (hunlike : ∀ t ∈ left, ofOneName t (.block id hd cs) = false) (hlike : th.sameNamed hd = true) :
    Added m parent id h (left ++ .block target (absorbed th hd) (tcs ++ cs) :: mid) right rest := by
  have hget : m.document.get? id = some (hd.block (cs.map child)) := hb.enter.get?_parent
  have hthere : m.document.get? target = some (th.block (tcs.map child)) := hb.get?_of_mem (by simp)
  have hnamed : th.isFontFace = false := not_isFontFace hlike
  have hfont : hd.isFontFace = false := not_isFontFace (sameNamed_symm hlike)
  have hsame : sameName (hd.block (cs.map child)) (th.block (tcs.map child)) = true := sameName_of_sameNamed hlike
  have htarget : m.kept.find? (fun x => (m.document.get? x).any (sameName (hd.block (cs.map child)))) = some target := by
    rw [hkept, namedIds_append, find?_append, find?_namedIds hb (by simp) hunlike, namedIds_cons_block hnamed,
      find?_cons_of_pos]
    · rfl
    · rw [hthere, Option.any_some, hsame]
  obtain ⟨hdocument, hsamekept⟩ :
      (m.add parent id).document = moveInto m.document parent id target (hd.block (cs.map child)) ∧
        (m.add parent id).kept = m.kept := by
    rw [Merging.add, hget]
    simp only [isFontFace_block, hfont, Bool.false_eq_true, if_false, htarget, and_self]
  have hmove : m.document.Bears parent h (left ++ .block target th tcs :: (mid ++ .block id hd cs :: right)) rest := by
    simpa using hb
  refine ⟨?_, ?_, ?_, ?_⟩
  · have hlookup : ((m.document.detach parent id).vacate id).get? target = some (th.block (tcs.map child)) :=
      (exact_vacate_detach hmove).holds (target, _) mem_cons_self
    simp only [Strict.addKept, hget, Option.bind_eq_bind, Option.bind_some, isFontFace_block, hfont, Bool.false_eq_true,
      if_false, firstBlock?_kept hb (subset_append_left _ _) hkept, htarget, hlookup]
    rfl
  · rw [hdocument]
    simpa using moveInto_becomes hmove
  · have hnamed' : (absorbed th hd).isFontFace = false := hnamed
    rw [hsamekept, hkept, namedIds_append, namedIds_append, namedIds_cons_block hnamed, namedIds_cons_block hnamed']
  · have hne : target ≠ id := by
      rintro rfl
      exact hb.notMem_idsOf.1 (by simp)
    rw [hdocument]
    refine moveInto_folds hget hthere hsame ?_ ?_ hne
    · rw [hb.childBlocks_parent]
      simp
    · rw [hb.childBlocks_parent]
      simp

/-- **A child is put into an earlier one**, or is left where it stands. -/
theorem add_becomes (hb : m.document.Bears parent h (left ++ .block id hd cs :: right) rest)
    (hkept : m.kept = namedIds left) : Added m parent id h (takeIn ofOneName absorb (.block id hd cs) left) right rest := by
  rcases takeIn_cases ofOneName absorb (.block id hd cs) left with ⟨hunlike, htake⟩ | ⟨front, t, mid, rfl, hunlike, hlike, htake⟩
  · rw [htake]
    cases hfont : hd.isFontFace with
    | true => exact added_of_isFontFace hb hkept hfont
    | false => exact added_of_unlike hb hkept hfont hunlike
  · rw [htake]
    cases t with
    | block target th tcs => exact added_of_like hb hkept hunlike hlike
    | _ => cases hlike

/-- **The children of a block are merged by name**, and those that are kept are the blocks among them that may be put
together with others. -/
theorem foldl_add_becomes (hb : m.document.Bears parent h (left ++ ts) rest) (hsound : SoundOf ts)
    (hkept : m.kept = namedIds left) :
    (idsOf ts).foldlM (Strict.addKept parent) m = some ((idsOf ts).foldl (Merging.add parent) m) ∧
      m.document.Becomes ((idsOf ts).foldl (Merging.add parent) m).document parent h
        (ts.foldl (fun l t => takeIn ofOneName absorb t l) left) rest ∧
      ((idsOf ts).foldl (Merging.add parent) m).kept = namedIds (ts.foldl (fun l t => takeIn ofOneName absorb t l) left) ∧
      m.document.Folds ((idsOf ts).foldl (Merging.add parent) m).document := by
  induction ts generalizing m left with
  | nil => exact ⟨rfl, .refl (by simpa using hb), hkept, .refl _⟩
  | cons t ts ih =>
    rw [foldl_cons]
    -- what is no block is passed over
    have hskip (ht : ∀ u, ofOneName u t = false) (hnamed : isNamed t = false) :
        takeIn ofOneName absorb t left = left ++ [t] ∧ m.kept = namedIds (left ++ [t]) := by
      refine ⟨takeIn_of_unlike fun u _ => ht u, ?_⟩
      rw [hkept, namedIds, namedIds, filter_append, filter_cons_of_neg (by simp [hnamed]), filter_nil, append_nil]
    rw [append_cons] at hb
    cases t with
    | lineAt rule =>
      obtain ⟨htake, hkept⟩ := hskip (fun u => by cases u <;> rfl) rfl
      rw [htake]
      exact ih hb hsound.2 hkept
    | comment text =>
      obtain ⟨htake, hkept⟩ := hskip (fun u => by cases u <;> rfl) rfl
      rw [htake]
      exact ih hb hsound.2 hkept
    | gone id => exact hsound.1.elim
    | block id hd cs =>
      obtain ⟨hone, hfirst, hkept', hfolds⟩ := add_becomes (by simpa using hb) hkept
      obtain ⟨hmore, hbecomes, hkept'', hfolds'⟩ := ih hfirst.bears hsound.2 hkept'
      rw [idsOf_cons_block, foldlM_cons, foldl_cons, hone]
      exact ⟨hmore, hbecomes.trans_leads hfirst.leads, hkept'', hfolds.trans hfolds'⟩

/-! ## The whole pass -/

/-- A pass into those children of a block that have been kept changes each of them in its turn. -/
theorem foldl_named {σ : Type} (doc : σ → Document) (step : σ → BlockId → σ) (strict : σ → BlockId → Option σ)
    {S : Twig → Twig → Prop} (hplain : ∀ t ∈ ts, isNamed t = false → S t t)
    (hstep : ∀ id hd cs, .block id hd cs ∈ ts → hd.isFontFace = false → ∀ s left right,
      (doc s).Bears parent h (left ++ .block id hd cs :: right) rest →
      ∃ u, strict s id = some (step s id) ∧ (doc s).Becomes (doc (step s id)) parent h (left ++ u :: right) rest ∧
        S (.block id hd cs) u ∧ (doc s).Folds (doc (step s id)))
    (s : σ) (left : List Twig) (hb : (doc s).Bears parent h (left ++ ts) rest) :
    ∃ us, (namedIds ts).foldlM strict s = some ((namedIds ts).foldl step s) ∧
      (doc s).Becomes (doc ((namedIds ts).foldl step s)) parent h (left ++ us) rest ∧ List.Forall₂ S ts us ∧
      (doc s).Folds (doc ((namedIds ts).foldl step s)) := by
  induction ts generalizing s left with
  | nil => exact ⟨[], rfl, .refl hb, .nil, .refl _⟩
  | cons t ts ih =>
    rw [forall_mem_cons] at hplain
    have hmore := fun s left hb =>
      ih hplain.2 (fun id hd cs hmem => hstep id hd cs (mem_cons_of_mem _ hmem)) s left hb
    cases hnamed : isNamed t with
    | false =>
      have hids : namedIds (t :: ts) = namedIds ts := by rw [namedIds, filter_cons_of_neg (by simp [hnamed]), namedIds]
      rw [append_cons] at hb
      obtain ⟨us, hstrict, hbecomes, hall, hfolds⟩ := hmore s (left ++ [t]) hb
      rw [append_assoc] at hbecomes
      rw [hids]
      exact ⟨t :: us, hstrict, hbecomes, .cons (hplain.1 hnamed) hall, hfolds⟩
    | true =>
      cases t with
      | block id hd cs =>
        have hids : namedIds (.block id hd cs :: ts) = id :: namedIds ts := by
          rw [namedIds, filter_cons_of_pos hnamed, idsOf_cons_block, namedIds]
        obtain ⟨u, hone, hfirst, hu, hfolds⟩ :=
          hstep id hd cs mem_cons_self (by simpa [isNamed] using hnamed) s left ts hb
        obtain ⟨us, hstrict, hbecomes, hall, hfolds'⟩ := hmore (step s id) (left ++ [u]) (by simpa using hfirst.bears)
        rw [append_assoc] at hbecomes
        rw [hids, foldlM_cons, foldl_cons, hone]
        exact ⟨u :: us, hstrict, hbecomes.trans_leads hfirst.leads, .cons hu hall, hfolds.trans hfolds'⟩
      | _ => cases hnamed

/-- Merging goes into the blocks that are no selectors and declare no font. -/
def mergesInto (h : Head) : Bool := h.isAtBlock && !h.isFontFace

/-- What merging by name makes of twigs. -/
abbrev MergesNames (depth : Nat) (ts vs : List Twig) : Prop :=
  Reworks mergesInto (fun ts us => us = condense ofOneName absorb ts) depth ts vs

/-- **Merging by name** never looks up a block that is gone, and puts the blocks of one name together wherever it
comes. -/
theorem mergeNamesFrom_reworks (depth : Nat) (hb : d.Bears parent h ts rest) (hsound : SoundOf ts)
    (hdepth : (entriesOf ts).length < depth) :
    ∃ vs, Strict.mergeNamesFrom depth d parent = some (mergeNamesFrom depth d parent) ∧
      d.Becomes (mergeNamesFrom depth d parent).document parent h vs rest ∧ MergesNames depth ts vs ∧
      d.Folds (mergeNamesFrom depth d parent).document := by
  induction depth generalizing d parent h ts rest with
  | zero => omega
  | succ depth ih =>
    have hall : ({ document := d } : Merging).document.Bears parent h ([] ++ ts) rest := hb
    obtain ⟨hstrict, hbecomes, hkept, hfolds⟩ := foldl_add_becomes hall hsound rfl
    have hretains := condense_retains ts
    have hbears : Bears _ parent h ([] ++ condense ofOneName absorb ts) rest := hbecomes.bears
    rw [← condense] at hkept
    have hus := soundOf_iff.mp (hretains.sound hsound)
    rw [Strict.mergeNamesFrom, mergeNamesFrom, hb.listedBlocks? hsound, hb.childBlocks_parent]
    simp only [Option.bind_eq_bind, Option.bind_some, hstrict, hkept]
    obtain ⟨vs, hstrict', hbecomes', hinto, hfolds'⟩ := foldl_named Merging.document
      (fun m id =>
        if (m.document.get? id).any (·.isAtBlock) then
          { m with
            document := (mergeNamesFrom depth m.document id).document
            merged := m.merged ++ (mergeNamesFrom depth m.document id).merged
            log := m.log ++ (mergeNamesFrom depth m.document id).log }
        else m) (fun m id => do
          let b ← m.document.get? id
          if b.isAtBlock then
            let inner ← Strict.mergeNamesFrom depth m.document id
            return { m with
              document := inner.document, merged := m.merged ++ inner.merged, log := m.log ++ inner.log }
          else return m) (S := Into mergesInto (MergesNames depth))
      (fun t _ hnamed => .keep fun id hd cs heq => by subst heq; simpa [isNamed, mergesInto] using fun _ => hnamed)
      (fun id hd cs hmem hfont m left right hb => by
        have hget : m.document.get? id = some (hd.block (cs.map child)) := hb.enter.get?_parent
        simp only [hget, Option.bind_eq_bind, Option.bind_some, Option.any_some, isAtBlock_block]
        by_cases hat : hd.isAtBlock = true
        · have hlt := length_entriesOf_lt hmem
          have hle := hretains.length_le
          obtain ⟨vs, hstrict, hinner, hvs, hfolds⟩ := ih hb.enter (hus _ hmem hat) (by omega)
          simp only [hat, if_true, hstrict, Option.bind_some]
          exact ⟨.block id hd vs, rfl, hinner.leave hb, .enter (by simp [mergesInto, hat, hfont]) hvs, hfolds⟩
        · simp only [hat, Bool.false_eq_true, if_false]
          refine ⟨_, rfl, .refl hb, .keep fun _ _ _ heq => ?_, .refl _⟩
          cases heq
          simp [mergesInto, hat])
      _ [] hbears
    exact ⟨vs, hstrict', hbecomes'.trans_leads hbecomes.leads, ⟨_, rfl, hinto⟩, hfolds.trans hfolds'⟩

/-- Merging loses nothing, wherever it comes. -/
theorem retains_of_mergesNames {depth : Nat} {vs : List Twig} (h : MergesNames depth ts vs) : Retains ts vs :=
  h.of_beside (fun ts _ hus => hus ▸ condense_retains ts) Retains.refl (fun _ _ _ => Retains.trans)
    (fun _ _ _ _ => Retains.append) fun _ _ _ _ henters hcs => hcs.inside (Bool.and_eq_true_iff.mp henters).1

end Selector

end Stylesheet
