import Stylesheet.Proofs.Document.Reach
import Mathlib.Data.List.Forall2

/-!
# Passes from block to block

A pass over a document does something with the children of a block, and then goes into some of them and does the same
there. `Twig.Reworks` says this of the twigs: given what the pass does with twigs that stand side by side, it relates the
twigs of a block to those that the whole pass leaves there.

What a pass does side by side is seen in the heads of the blocks and in the order of the children
(`Document.offspring`, `Document.childrenAt`). Going into a block changes neither.

`Document.Entered` follows a pass from its start. If the pass leaves the blocks that it goes into as they are, it goes
into the same blocks before and after, and what it leaves in each of them is what it made of that block
(`Reworks.exists_bears`).
-/

namespace Stylesheet

open List

namespace Head

def fragments (h : Head) : List String := (h.block []).fragments

/-- The fragments of a selector, each with the declarations. -/
def rules (h : Head) : List (String × Declarations) := h.fragments.map fun fragment => (fragment, h.declarations)

theorem fragments_of_isAtBlock {h : Head} (hat : h.isAtBlock = true) : h.fragments = [] := by
  obtain ⟨name, kind, declarations⟩ := h
  cases kind with
  | selector fragments => cases hat
  | atBlock => rfl

@[simp] theorem fragments_block (h : Head) (children : List Child) : (h.block children).fragments = h.fragments := rfl

end Head

/-- Children that are left of others, among them all that are no blocks, are known from the blocks that are left. -/
theorem Child.eq_filter_of_sublist {cs cs' : List Child} (hsub : cs'.Sublist cs)
    (hplain : cs'.filter (·.blockId?.isNone) = cs.filter (·.blockId?.isNone))
    (hnodup : (cs.filterMap Child.blockId?).Nodup) :
    cs' = cs.filter fun c => c.blockId?.all (· ∈ cs'.filterMap Child.blockId?) := by
  induction hsub with
  | slnil => rfl
  | @cons cs' cs c hsub ih =>
    cases hc : c.blockId? with
    | none =>
      -- a child that is no block cannot be left out
      have hlength := (hsub.filter (·.blockId?.isNone)).length_le
      rw [hplain, filter_cons_of_pos (by rw [hc]; rfl), length_cons] at hlength
      exact absurd hlength (Nat.not_succ_le_self _)
    | some x =>
      rw [filterMap_cons_some hc, nodup_cons] at hnodup
      rw [filter_cons_of_neg (by simp [hc])] at hplain
      have hx : x ∉ cs'.filterMap Child.blockId? := fun hx => hnodup.1 ((hsub.filterMap _).subset hx)
      rw [filter_cons_of_neg (by simpa [hc] using hx)]
      exact ih hplain hnodup.2
  | @cons_cons cs' cs c hsub ih =>
    cases hc : c.blockId? with
    | none =>
      rw [filterMap_cons_none hc] at hnodup ⊢
      rw [filter_cons_of_pos (by rw [hc]; rfl), filter_cons_of_pos (by rw [hc]; rfl)] at hplain
      rw [filter_cons_of_pos (by rw [hc]; rfl), ← ih (cons.inj hplain).2 hnodup]
    | some x =>
      rw [filterMap_cons_some hc, nodup_cons] at hnodup
      rw [filter_cons_of_neg (by simp [hc]), filter_cons_of_neg (by simp [hc])] at hplain
      rw [filterMap_cons_some hc, filter_cons_of_pos (by simp [hc])]
      congr 1
      refine (ih hplain hnodup.2).trans (filter_congr fun c' hc' => ?_)
      cases hy : c'.blockId? with
      | none => rfl
      | some y =>
        have hne : y ≠ x := fun heq => hnodup.1 (heq ▸ mem_filterMap.mpr ⟨c', hc', hy⟩)
        simp [hne]

namespace Twig

variable {ts : List Twig} {id : BlockId}

/-- The identifier and the head of a block that is there. -/
def headed? : Twig → Option (BlockId × Head)
  | block id h _ => some (id, h)
  | _ => none

/-- The blocks among the twigs that are there, with their heads. -/
def offspringOf (ts : List Twig) : List (BlockId × Head) := ts.filterMap headed?

@[simp] theorem offspringOf_nil : offspringOf [] = [] := rfl

@[simp] theorem offspringOf_cons_block (id : BlockId) (h : Head) (cs ts : List Twig) :
    offspringOf (block id h cs :: ts) = (id, h) :: offspringOf ts := rfl

@[simp] theorem offspringOf_cons_gone (id : BlockId) (ts : List Twig) : offspringOf (gone id :: ts) = offspringOf ts := rfl

@[simp] theorem offspringOf_cons_lineAt (rule : LineAt) (ts : List Twig) :
    offspringOf (lineAt rule :: ts) = offspringOf ts := rfl

@[simp] theorem offspringOf_cons_comment (text : String) (ts : List Twig) :
    offspringOf (comment text :: ts) = offspringOf ts := rfl

theorem mem_offspringOf {h : Head} : (id, h) ∈ offspringOf ts ↔ ∃ cs, block id h cs ∈ ts := by
  rw [offspringOf, mem_filterMap]
  constructor
  · rintro ⟨t, ht, hid⟩
    cases t with
    | block x hx cs =>
      cases hid
      exact ⟨cs, ht⟩
    | _ => cases hid
  · rintro ⟨cs, ht⟩
    exact ⟨_, ht, rfl⟩

theorem map_fst_offspringOf_sublist (ts : List Twig) : ((offspringOf ts).map Prod.fst).Sublist (idsOf ts) := by
  induction ts with
  | nil => exact .refl _
  | cons t ts ih =>
    cases t with
    | block id h cs => exact ih.cons_cons id
    | gone id => exact ih.cons id
    | lineAt rule => exact ih
    | comment text => exact ih

/-! ## Going into blocks -/

/-- The twig is left as it is, or it is a block that is gone into, and only what stands in it is changed. -/
inductive Into (enters : Head → Bool) (R : List Twig → List Twig → Prop) : Twig → Twig → Prop
  | enter {id : BlockId} {h : Head} {cs cs' : List Twig} (henters : enters h = true) (inner : R cs cs') :
      Into enters R (block id h cs) (block id h cs')
  | keep {t : Twig} (ht : ∀ id h cs, t = block id h cs → enters h = false) : Into enters R t t

variable {enters : Head → Bool} {R : List Twig → List Twig → Prop} {t u : Twig} {us vs : List Twig}

/-- What is in the second list comes from the first. -/
theorem exists_of_mem_right {α β : Type} {S : α → β → Prop} {l : List α} {l' : List β} (h : List.Forall₂ S l l') {b : β}
    (hb : b ∈ l') : ∃ a ∈ l, S a b := by
  induction h with
  | nil => cases hb
  | cons head _ ih =>
    rcases mem_cons.mp hb with rfl | hb
    · exact ⟨_, mem_cons_self, head⟩
    · obtain ⟨a, ha, hS⟩ := ih hb
      exact ⟨a, mem_cons_of_mem _ ha, hS⟩

theorem Into.child_eq (h : Into enters R t u) : u.child = t.child := by cases h <;> rfl

theorem Into.headed?_eq (h : Into enters R t u) : u.headed? = t.headed? := by cases h <;> rfl

/-- Going into blocks changes nothing that is seen from outside. -/
theorem map_of_into {α : Type} {f : Twig → α} (hf : ∀ t u, Into enters R t u → f u = f t)
    (h : List.Forall₂ (Into enters R) us vs) : vs.map f = us.map f := by
  induction h with
  | nil => rfl
  | cons head _ ih => rw [map_cons, map_cons, hf _ _ head, ih]

theorem map_child_of_into (h : List.Forall₂ (Into enters R) us vs) : vs.map child = us.map child :=
  map_of_into (fun _ _ => Into.child_eq) h

theorem offspringOf_of_into (h : List.Forall₂ (Into enters R) us vs) : offspringOf vs = offspringOf us := by
  have hmap (ts : List Twig) : offspringOf ts = (ts.map headed?).filterMap id := by
    rw [filterMap_map]
    rfl
  rw [hmap, hmap, map_of_into (fun _ _ => Into.headed?_eq) h]

/-- Twigs without blocks that are gone into are left as they are. -/
theorem forall₂_into_self (hus : ∀ id h cs, block id h cs ∈ us → enters h = false) : List.Forall₂ (Into enters R) us us :=
  forall₂_same.mpr fun _ ht => .keep fun id h cs heq => hus id h cs (heq ▸ ht)

section

variable (h : List.Forall₂ (Into enters R) us vs)
include h

/-- A block that has been gone into comes from one of its head. -/
theorem exists_of_mem_into {hd : Head} {cs' : List Twig}
    (hmem : block id hd cs' ∈ vs) (henters : enters hd = true) : ∃ cs, block id hd cs ∈ us ∧ R cs cs' := by
  obtain ⟨t, ht, hinto⟩ := exists_of_mem_right h hmem
  cases hinto with
  | enter _ inner => exact ⟨_, ht, inner⟩
  | keep hkeep => rw [hkeep id hd cs' rfl] at henters; cases henters

/-- A block that is gone into is there afterwards under its head. -/
theorem exists_into_of_mem {hd : Head} {cs : List Twig}
    (hmem : block id hd cs ∈ us) (henters : enters hd = true) : ∃ cs', block id hd cs' ∈ vs ∧ R cs cs' := by
  obtain ⟨v, hv, hinto⟩ := exists_of_mem_right h.flip hmem
  cases hinto with
  | enter _ inner => exact ⟨_, hv, inner⟩
  | keep hkeep => rw [hkeep id hd cs rfl] at henters; cases henters

/-- What is not gone into is there afterwards as it was. -/
theorem mem_of_into (hmem : t ∈ us) (ht : ∀ id hd cs, t = block id hd cs → enters hd = false) : t ∈ vs := by
  obtain ⟨v, hv, hinto⟩ := exists_of_mem_right h.flip hmem
  cases hinto with
  | enter henters _ => rw [ht _ _ _ rfl] at henters; cases henters
  | keep => exact hv

end

theorem Each.imp {S S' : Twig → List Twig → Prop} (hS : ∀ t vs, S t vs → S' t vs) (h : Each S us vs) : Each S' us vs := by
  induction h with
  | nil => exact .nil
  | cons head _ ih => exact .cons (hS _ _ head) ih

theorem Each.forall₂ {S : Twig → Twig → Prop} (h : Each (fun t vs => ∃ v, vs = [v] ∧ S t v) us vs) :
    List.Forall₂ S us vs := by
  induction h with
  | nil => exact .nil
  | cons head _ ih =>
    obtain ⟨v, rfl, hv⟩ := head
    exact .cons hv ih

theorem Each.exists_forall₂ {S : Twig → List Twig → Prop} {Q : Twig → Twig → Prop}
    (h : Each (fun t vs => ∃ us, S t us ∧ List.Forall₂ Q us vs) ts vs) : ∃ us, Each S ts us ∧ List.Forall₂ Q us vs := by
  induction h with
  | nil => exact ⟨[], .nil, .nil⟩
  | cons head _ ih =>
    obtain ⟨us, hus, hvs⟩ := head
    obtain ⟨us', hus', hvs'⟩ := ih
    exact ⟨us ++ us', .cons hus hus', rel_append hvs hvs'⟩

/-- **What a pass makes of twigs**, down to some depth: the first relation holds side by side, and the pass then goes into
the blocks that it enters. -/
def Reworks (enters : Head → Bool) (L : List Twig → List Twig → Prop) : Nat → List Twig → List Twig → Prop
  | 0, _, _ => False
  | depth + 1, ts, vs => ∃ us, L ts us ∧ List.Forall₂ (Into enters (Reworks enters L depth)) us vs

/-- **What holds side by side** and can be put together, behind each other and into blocks that are gone into, holds of
the whole pass. -/
theorem Reworks.of_beside {L P : List Twig → List Twig → Prop} (hL : ∀ ts us, L ts us → P ts us) (hrefl : ∀ ts, P ts ts)
    (htrans : ∀ ts us vs, P ts us → P us vs → P ts vs)
    (happend : ∀ ts us ts' us', P ts us → P ts' us' → P (ts ++ ts') (us ++ us'))
    (hinside : ∀ id h cs cs', enters h = true → P cs cs' → P [block id h cs] [block id h cs']) {depth : Nat} {ts : List Twig}
    (h : Reworks enters L depth ts vs) : P ts vs := by
  induction depth generalizing ts vs with
  | zero => exact h.elim
  | succ depth ih =>
    obtain ⟨us, hus, hinto⟩ := h
    refine htrans ts us vs (hL ts us hus) ?_
    clear hus
    induction hinto with
    | nil => exact hrefl []
    | @cons t v us vs head _ ihtail =>
      refine happend [t] [v] us vs ?_ ihtail
      cases head with
      | enter henters inner => exact hinside _ _ _ _ henters (ih inner)
      | keep => exact hrefl [t]

end Twig

namespace Document

open Twig

/-! ## The children of a block -/

/-- What stands in a block, in order. -/
def childrenAt (d : Document) (id : BlockId) : List Child := ((d.get? id).map (·.children)).getD []

/-- The blocks that stand in a block, with their heads. -/
def offspring (d : Document) (id : BlockId) : List (BlockId × Head) :=
  (d.childBlocks id).filterMap fun c => (d.get? c).map fun b => (c, b.head)

/-- The fragments of the selectors that stand in a block, in order and each with its declarations. -/
def rules (d : Document) (id : BlockId) : List (String × Declarations) := (d.offspring id).flatMap fun e => e.2.rules

variable {enters : Head → Bool} {d d' : Document} {parent id : BlockId} {h hd : Head} {ts cs : List Twig}
  {rest rest' : List (BlockId × Block)}

theorem Bears.childrenAt_eq (hb : d.Bears parent h ts rest) : d.childrenAt parent = ts.map child := by
  rw [childrenAt, hb.get?_parent]
  rfl

theorem Bears.offspring_eq (hb : d.Bears parent h ts rest) : d.offspring parent = offspringOf ts := by
  rw [offspring, hb.childBlocks_parent, hb.filterMap_idsOf, offspringOf]
  rfl

theorem Bears.mem_childBlocks (hb : d.Bears parent h ts rest) (hmem : .block id hd cs ∈ ts) :
    id ∈ d.childBlocks parent := by
  rw [hb.childBlocks_parent]
  exact mem_filterMap.mpr ⟨_, mem_map_of_mem hmem, rfl⟩

/-! ## Blocks that a pass goes into -/

/-- A pass that has nothing to do with any of some blocks does nothing. -/
theorem foldl_of_fixed {σ : Type} {step : σ → BlockId → σ} {s : σ} {ids : List BlockId} (h : ∀ id ∈ ids, step s id = s) :
    ids.foldl step s = s := by
  induction ids with
  | nil => rfl
  | cons id ids ih =>
    rw [forall_mem_cons] at h
    rw [foldl_cons, h.1, ih h.2]

/-! ## One block, before and after -/

/-- What a pass does with a block that it goes into. It makes the second twigs of the first ones, side by side, and then
goes into the second ones. -/
structure ReworkedAt (enters : Head → Bool) (L : List Twig → List Twig → Prop) (d d' : Document) (p : BlockId)
    (ts us : List Twig) : Prop where
  beside : L ts us
  nodup : (idsOf ts).Nodup
  before : ∃ h rest, d.Bears p h ts rest
  after : ∃ R h vs rest, List.Forall₂ (Into enters R) us vs ∧ d'.Bears p h vs rest

namespace ReworkedAt

variable {L : List Twig → List Twig → Prop} {p : BlockId} {us : List Twig} (hr : d.ReworkedAt enters L d' p ts us)
include hr

theorem childrenAt_eq : d.childrenAt p = ts.map child := by
  obtain ⟨h, rest, hb⟩ := hr.before
  exact hb.childrenAt_eq

theorem offspring_eq : d.offspring p = offspringOf ts := by
  obtain ⟨h, rest, hb⟩ := hr.before
  exact hb.offspring_eq

theorem childrenAt_eq' : d'.childrenAt p = us.map child := by
  obtain ⟨R, h, vs, rest, hinto, hb⟩ := hr.after
  rw [hb.childrenAt_eq, map_child_of_into hinto]

theorem childBlocks_eq' : d'.childBlocks p = idsOf us := by
  obtain ⟨R, h, vs, rest, hinto, hb⟩ := hr.after
  rw [hb.childBlocks_parent, idsOf, map_child_of_into hinto, idsOf]

theorem offspring_eq' : d'.offspring p = offspringOf us := by
  obtain ⟨R, h, vs, rest, hinto, hb⟩ := hr.after
  rw [hb.offspring_eq, offspringOf_of_into hinto]

/-- The blocks that stand in the block at first. -/
theorem exists_of_get? {b : Block} (hid : id ∈ d.childBlocks p) (hget : d.get? id = some b) :
    ∃ hd cs, .block id hd cs ∈ ts ∧ b = hd.block (cs.map child) := by
  obtain ⟨h, rest, hb⟩ := hr.before
  rw [hb.childBlocks_parent] at hid
  rcases mem_idsOf hid with ⟨hd, cs, hmem⟩ | hgone
  · exact ⟨hd, cs, hmem, Option.some.inj (hget.symm.trans (hb.get?_of_mem hmem))⟩
  · rw [hb.get?_of_gone hgone] at hget
    cases hget

/-- The blocks that stand there afterwards have the heads that the pass gave them. -/
theorem exists_get?' (hmem : .block id hd cs ∈ us) : ∃ b, d'.get? id = some b ∧ b.head = hd := by
  obtain ⟨R, h, vs, rest, hinto, hb⟩ := hr.after
  have hvs : (id, hd) ∈ offspringOf vs := by
    rw [offspringOf_of_into hinto]
    exact mem_offspringOf.mpr ⟨cs, hmem⟩
  obtain ⟨cs', hcs'⟩ := mem_offspringOf.mp hvs
  exact ⟨_, hb.get?_of_mem hcs', rfl⟩

/-- Those that the pass does not go into hold what it put into them. -/
theorem get?_eq' (hmem : .block id hd cs ∈ us) (henters : enters hd = false) : d'.get? id = some (hd.block (cs.map child)) := by
  obtain ⟨R, h, vs, rest, hinto, hb⟩ := hr.after
  refine hb.get?_of_mem (mem_of_into hinto hmem fun _ _ _ heq => ?_)
  cases heq
  exact henters

end ReworkedAt

end Document

namespace Twig.Reworks

open Document

variable {enters : Head → Bool} {L : List Twig → List Twig → Prop} {d d' : Document} {parent id : BlockId} {h : Head}
  {ts vs : List Twig} {rest rest' : List (BlockId × Block)} {depth : Nat}

/-- What stands in a block that the pass went into is what the pass made of some twigs. -/
theorem exists_reworks (hb' : d'.Bears parent h vs rest') (hr : Reworks enters L depth ts vs)
    (hid : d'.Entered enters parent id) :
    ∃ depth hp ts vs rest, d'.Bears id hp vs rest ∧ Reworks enters L depth ts vs := by
  obtain ⟨hp, vs, rest, hbp, depth, ts, hr⟩ := hb'.of_entered (J := fun _ _ vs => ∃ depth ts, Reworks enters L depth ts vs)
    (fun _ _ vs id hd cs' hJ hmem henters _ _ => by
      obtain ⟨depth, ts, hr⟩ := hJ
      cases depth with
      | zero => exact hr.elim
      | succ depth =>
        obtain ⟨us, -, hinto⟩ := hr
        obtain ⟨cs, -, hR⟩ := exists_of_mem_into hinto hmem henters
        exact ⟨depth, cs, hR⟩) ⟨depth, ts, hr⟩ hid
  exact ⟨depth, hp, ts, vs, rest, hbp, hr⟩

section Keeps

variable (hkeeps : ∀ ts us, L ts us → ∀ id hd cs, enters hd = true → (.block id hd cs ∈ us ↔ .block id hd cs ∈ ts))
include hkeeps

/-- **A block that the pass goes into** holds afterwards what the pass made of what stood in it. -/
theorem exists_bears (hb : d.Bears parent h ts rest) (hlost : lostOf ts = []) (hb' : d'.Bears parent h vs rest')
    (hr : Reworks enters L depth ts vs) (hid : d.Entered enters parent id) :
    d'.Entered enters parent id ∧ ∃ depth hp ts vs rest rest', d.Bears id hp ts rest ∧ lostOf ts = [] ∧
      d'.Bears id hp vs rest' ∧ Reworks enters L depth ts vs := by
  obtain ⟨hp, ts, rest, hbp, hentered, hlost, depth, vs, rest', hbp', hr⟩ := hb.of_entered
    (J := fun p hp ts => d'.Entered enters parent p ∧ lostOf ts = [] ∧
      ∃ depth vs rest', d'.Bears p hp vs rest' ∧ Reworks enters L depth ts vs)
    (fun p hp ts id hd cs hJ hmem henters _ _ => by
      obtain ⟨hentered, hlost, depth, vs, rest', hbp', hr⟩ := hJ
      cases depth with
      | zero => exact hr.elim
      | succ depth =>
        obtain ⟨us, hL, hinto⟩ := hr
        obtain ⟨cs', hcs', hR⟩ := exists_into_of_mem hinto ((hkeeps _ _ hL id hd cs henters).mpr hmem) henters
        obtain ⟨rest'', hinner⟩ := hbp'.enter_of_mem hcs'
        exact ⟨.child hentered (hbp'.mem_childBlocks hcs') (hbp'.get?_of_mem hcs') henters, lostOf_eq_nil_iff.mp hlost _ hmem,
          depth, cs', rest'', hinner, hR⟩)
    ⟨.start, hlost, depth, vs, rest', hb', hr⟩ hid
  exact ⟨hentered, depth, hp, ts, vs, rest, rest', hbp, hlost, hbp', hr⟩

/-- The pass goes into the same blocks before and after. -/
theorem entered_iff (hb : d.Bears parent h ts rest) (hlost : lostOf ts = []) (hb' : d'.Bears parent h vs rest')
    (hr : Reworks enters L depth ts vs) : d'.Entered enters parent id ↔ d.Entered enters parent id := by
  refine ⟨fun hid => ?_, fun hid => (exists_bears hkeeps hb hlost hb' hr hid).1⟩
  obtain ⟨-, -, -, -, hentered, -⟩ := hb'.of_entered
    (J := fun p hp vs => d.Entered enters parent p ∧ ∃ depth ts rest, d.Bears p hp ts rest ∧ Reworks enters L depth ts vs)
    (fun p hp vs id hd cs' hJ hmem henters _ _ => by
      obtain ⟨hentered, depth, ts, rest, hbp, hr⟩ := hJ
      cases depth with
      | zero => exact hr.elim
      | succ depth =>
        obtain ⟨us, hL, hinto⟩ := hr
        obtain ⟨cs, hcs, hR⟩ := exists_of_mem_into hinto hmem henters
        have hts := (hkeeps _ _ hL id hd cs henters).mp hcs
        obtain ⟨rest'', hinner⟩ := hbp.enter_of_mem hts
        exact ⟨.child hentered (hbp.mem_childBlocks hts) (hbp.get?_of_mem hts) henters, depth, cs, rest'', hinner, hR⟩)
    ⟨.start, depth, ts, rest, hb, hr⟩ hid
  exact hentered

/-- What the pass makes of a block that it goes into, side by side. -/
theorem exists_reworkedAt (hb : d.Bears parent h ts rest) (hlost : lostOf ts = []) (hb' : d'.Bears parent h vs rest')
    (hr : Reworks enters L depth ts vs) (hid : d.Entered enters parent id) :
    ∃ ts us, d.ReworkedAt enters L d' id ts us := by
  obtain ⟨-, depth, hp, ts, vs, rest, rest', hbp, hlost, hbp', hr⟩ := exists_bears hkeeps hb hlost hb' hr hid
  cases depth with
  | zero => exact hr.elim
  | succ depth =>
    obtain ⟨us, hL, hinto⟩ := hr
    exact ⟨ts, us, hL, hbp.nodup_idsOf (soundOf_of_lostOf ts hlost), ⟨hp, rest, hbp⟩, ⟨_, hp, vs, rest', hinto, hbp'⟩⟩

end Keeps

end Twig.Reworks

end Stylesheet
