import Stylesheet.Proofs.Document.Node
import Mathlib.Tactic.Ring

/-!
# What a table holds

Passes over a document take blocks out of its table, and whoever still refers to such a block refers to nothing. So the
trees that tables hold are wider than those that are read: besides blocks, at-rules and comments, a block may hold
references to blocks that are gone (`Twig`).

`Document.Exact d es` says that the blocks of a table are the entries `es` and no others, each under its own
identifier. Everything that is done to a table changes one entry, takes one away or adds one.

A pass works at one block at a time. `Document.Bears d parent h ts rest` says that the table holds this block with the
twigs in it, and beside them the entries `rest`, which the pass does not touch. To work at a block inside the block is
to take the entries around it along (`Bears.enter`, `Bears.leave`).
-/

namespace Stylesheet

open List

/-- What a block has besides what stands in it. -/
structure Head where
  name : String
  kind : BlockKind
  declarations : Declarations := .empty

namespace Head

/-- The block with the given children. -/
def block (h : Head) (children : List Child) : Block := ⟨h.name, h.kind, h.declarations, children⟩

/-- The head of the root. -/
def root : Head := { name := "", kind := .atBlock }

def isSelector (h : Head) : Bool := (h.block []).isSelector

def isAtBlock (h : Head) : Bool := (h.block []).isAtBlock

theorem isAtBlock_eq (h : Head) : h.isAtBlock = !h.isSelector := rfl

theorem not_isAtBlock {h : Head} (hselector : h.isSelector = true) : ¬ h.isAtBlock = true := by
  rw [isAtBlock_eq, hselector]
  decide

@[simp] theorem isSelector_block (h : Head) (children : List Child) : (h.block children).isSelector = h.isSelector := rfl

@[simp] theorem isAtBlock_block (h : Head) (children : List Child) : (h.block children).isAtBlock = h.isAtBlock := rfl

@[simp] theorem declarations_block (h : Head) (children : List Child) :
    (h.block children).declarations = h.declarations := rfl

@[simp] theorem name_block (h : Head) (children : List Child) : (h.block children).name = h.name := rfl

@[simp] theorem children_block (h : Head) (children : List Child) : (h.block children).children = children := rfl

end Head

/-- What a child of a block stands for, with all identifiers: a block that is gone is still referred to. -/
inductive Twig where
  | block (id : BlockId) (head : Head) (children : List Twig)
  | lineAt (rule : LineAt)
  | comment (text : String)
  | gone (id : BlockId)

namespace Twig

variable {ts : List Twig} {id : BlockId}

/-- Induction over twigs and over the twigs in their blocks. -/
@[elab_as_elim] theorem listInduction {P : List Twig → Prop} (nil : P [])
    (block : ∀ id h cs ts, P cs → P ts → P (block id h cs :: ts)) (gone : ∀ id ts, P ts → P (gone id :: ts))
    (lineAt : ∀ rule ts, P ts → P (lineAt rule :: ts)) (comment : ∀ text ts, P ts → P (comment text :: ts))
    (ts : List Twig) : P ts :=
  @Twig.rec_1 (fun t => ∀ ts, P ts → P (t :: ts)) P (fun id h cs hcs ts => block id h cs ts hcs) lineAt comment gone nil
    (fun _ ts ht => ht ts) ts

/-- How a block refers to the twig. -/
def child : Twig → Child
  | block id _ _ => .block id
  | lineAt rule => .lineAt rule
  | comment text => .comment text
  | gone id => .block id

mutual

/-- The entries of a table that the twig takes up. -/
def entries : Twig → List (BlockId × Block)
  | block id h cs => (id, h.block (cs.map child)) :: entriesOf cs
  | _ => []

/-- The entries of a table that the twigs take up. -/
def entriesOf : List Twig → List (BlockId × Block)
  | [] => []
  | t :: ts => t.entries ++ entriesOf ts

end

mutual

/-- The blocks that are referred to though they are gone. -/
def lost : Twig → List BlockId
  | block _ _ cs => lostOf cs
  | gone id => [id]
  | _ => []

/-- The blocks that are referred to though they are gone. -/
def lostOf : List Twig → List BlockId
  | [] => []
  | t :: ts => t.lost ++ lostOf ts

end

/-- The blocks that are referred to, whether they are there or not. -/
def idsOf (ts : List Twig) : List BlockId := (ts.map child).filterMap Child.blockId?

@[simp] theorem idsOf_nil : idsOf [] = [] := rfl

@[simp] theorem idsOf_cons_block (id : BlockId) (h : Head) (cs ts : List Twig) :
    idsOf (block id h cs :: ts) = id :: idsOf ts := rfl

@[simp] theorem idsOf_cons_gone (id : BlockId) (ts : List Twig) : idsOf (gone id :: ts) = id :: idsOf ts := rfl

@[simp] theorem idsOf_cons_lineAt (rule : LineAt) (ts : List Twig) : idsOf (lineAt rule :: ts) = idsOf ts := rfl

@[simp] theorem idsOf_cons_comment (text : String) (ts : List Twig) : idsOf (comment text :: ts) = idsOf ts := rfl

@[simp] theorem entriesOf_append (ts us : List Twig) : entriesOf (ts ++ us) = entriesOf ts ++ entriesOf us := by
  induction ts with
  | nil => rfl
  | cons t ts ih => rw [cons_append, entriesOf, entriesOf, ih, append_assoc]

@[simp] theorem lostOf_append (ts us : List Twig) : lostOf (ts ++ us) = lostOf ts ++ lostOf us := by
  induction ts with
  | nil => rfl
  | cons t ts ih => rw [cons_append, lostOf, lostOf, ih, append_assoc]

@[simp] theorem idsOf_append (ts us : List Twig) : idsOf (ts ++ us) = idsOf ts ++ idsOf us := by
  simp [idsOf]

theorem mem_entriesOf {e : BlockId × Block} : e ∈ entriesOf ts ↔ ∃ t ∈ ts, e ∈ t.entries := by
  induction ts with
  | nil => simp [entriesOf]
  | cons t ts ih => simp [entriesOf, ih]

/-- A block has fewer entries in it than stand where it stands. -/
theorem length_entriesOf_lt {cs : List Twig} {hd : Head} (hmem : block id hd cs ∈ ts) :
    (entriesOf cs).length < (entriesOf ts).length := by
  obtain ⟨left, right, rfl⟩ := append_of_mem hmem
  simp only [entriesOf_append, entriesOf, entries, length_append, length_cons]
  omega

theorem mem_lostOf : id ∈ lostOf ts ↔ ∃ t ∈ ts, id ∈ t.lost := by
  induction ts with
  | nil => simp [lostOf]
  | cons t ts ih => simp [lostOf, ih]

theorem lostOf_eq_nil_iff : lostOf ts = [] ↔ ∀ t ∈ ts, t.lost = [] := by
  induction ts with
  | nil => simp [lostOf]
  | cons t ts ih => simp [lostOf, ih]

/-- Twigs that refer to no block have no entries, and none of them is lost. -/
theorem entriesOf_lostOf_of_idsOf (h : idsOf ts = []) : entriesOf ts = [] ∧ lostOf ts = [] := by
  induction ts with
  | nil => exact ⟨rfl, rfl⟩
  | cons t ts ih => cases t <;> simp_all [entriesOf, entries, lostOf, lost]

/-- A block that a list of twigs refers to is in its entries, or lost. -/
theorem mem_idsOf (h : id ∈ idsOf ts) : (∃ hd cs, block id hd cs ∈ ts) ∨ gone id ∈ ts := by
  simp only [idsOf, filterMap_map, mem_filterMap, Function.comp_apply] at h
  obtain ⟨t, ht, hid⟩ := h
  cases t with
  | block id' hd cs =>
    cases hid
    exact .inl ⟨hd, cs, ht⟩
  | gone id' =>
    cases hid
    exact .inr ht
  | lineAt rule => cases hid
  | comment text => cases hid

end Twig

theorem Block.mem_childBlocks {b : Block} {id : BlockId} : id ∈ b.childBlocks ↔ .block id ∈ b.children := by
  rw [childBlocks, mem_filterMap]
  constructor
  · rintro ⟨c, hc, hid⟩
    cases c with
    | block x => exact Option.some.inj hid ▸ hc
    | lineAt rule => cases hid
    | comment text => cases hid
  · exact fun h => ⟨_, h, rfl⟩

namespace Document

open Twig

theorem mem_childBlocks {d : Document} {parent id : BlockId} :
    id ∈ d.childBlocks parent ↔ ∃ b, d.get? parent = some b ∧ .block id ∈ b.children := by
  rw [childBlocks]
  cases d.get? parent with
  | none => simp
  | some b => simp [Block.mem_childBlocks]

/-! ## The table after a change -/

theorem get?_vacate (d : Document) (id id' : BlockId) :
    (d.vacate id).get? id' = if id = id' then none else d.get? id' := by
  split
  · next heq =>
    subst heq
    by_cases hlt : id.index < d.blocks.size
    · simp [get?, vacate, Array.getElem?_setIfInBounds_self_of_lt hlt]
    · simp [get?, vacate, Nat.le_of_not_lt hlt]
  · next hne =>
    have hindex : id.index ≠ id'.index := fun heq => hne (by cases id; cases id'; simp_all)
    simp [get?, vacate, Array.getElem?_setIfInBounds_ne hindex]

theorem get?_foldl_vacate (d : Document) (ids : List BlockId) (id : BlockId) :
    (ids.foldl vacate d).get? id = if id ∈ ids then none else d.get? id := by
  induction ids generalizing d with
  | nil => simp
  | cons first ids ih =>
    rw [foldl_cons, ih, get?_vacate]
    by_cases hmem : id ∈ ids
    · simp [hmem]
    · by_cases heq : first = id
      · simp [heq]
      · simp [hmem, heq, Ne.symm heq]

theorem get?_alloc (d : Document) (b : Block) (id : BlockId) :
    (d.alloc b).get? id = if id = d.fresh then some b else d.get? id := by
  split
  · next heq =>
    rw [heq]
    exact get?_alloc_fresh d b
  · next hne =>
    have hindex : id.index ≠ d.blocks.size := fun heq => hne (by cases id; simp_all [fresh])
    simp only [get?, alloc, Array.getElem?_push, if_neg hindex]

@[simp] theorem size_blocks_vacate (d : Document) (id : BlockId) : (d.vacate id).blocks.size = d.blocks.size := by
  simp [vacate]

@[simp] theorem size_blocks_alloc (d : Document) (b : Block) : (d.alloc b).blocks.size = d.blocks.size + 1 := by
  simp [alloc]

/-! ## Identifiers are given out once -/

/-- The identifier has been given out, and its block is gone. -/
def Spent (d : Document) (id : BlockId) : Prop := id.index < d.blocks.size ∧ d.get? id = none

/-- The second document comes from the first by work on its blocks: no identifier that is spent is given out again, and
the stream is left alone. -/
structure Leads (d d' : Document) : Prop where
  size_le : d.blocks.size ≤ d'.blocks.size
  get?_spent : ∀ id, d.Spent id → d'.get? id = none
  tokens_eq : d'.tokens = d.tokens

theorem Leads.refl (d : Document) : d.Leads d := ⟨Nat.le_refl _, fun _ h => h.2, rfl⟩

theorem Spent.leads {d d' : Document} {id : BlockId} (h : d.Spent id) (hleads : d.Leads d') : d'.Spent id :=
  ⟨Nat.lt_of_lt_of_le h.1 hleads.size_le, hleads.get?_spent id h⟩

theorem Leads.trans {d d' d'' : Document} (h : d.Leads d') (h' : d'.Leads d'') : d.Leads d'' :=
  ⟨Nat.le_trans h.size_le h'.size_le, fun id hid => h'.get?_spent id (hid.leads h), h'.tokens_eq.trans h.tokens_eq⟩

theorem leads_modify (d : Document) (id : BlockId) (f : Block → Block) : d.Leads (d.modify id f) := by
  refine ⟨Nat.le_of_eq (size_blocks_modify d id f).symm, fun x hx => ?_, ?_⟩
  · rw [get?_modify, hx.2]
    split <;> rfl
  · unfold modify
    split <;> rfl

theorem leads_vacate (d : Document) (id : BlockId) : d.Leads (d.vacate id) := by
  refine ⟨Nat.le_of_eq (size_blocks_vacate d id).symm, fun x hx => ?_, rfl⟩
  rw [get?_vacate, hx.2, ite_self]

theorem leads_foldl_vacate (d : Document) (ids : List BlockId) : d.Leads (ids.foldl vacate d) := by
  induction ids generalizing d with
  | nil => exact .refl d
  | cons id ids ih => exact (leads_vacate d id).trans (ih (d.vacate id))

theorem leads_alloc (d : Document) (b : Block) : d.Leads (d.alloc b) := by
  refine ⟨by rw [size_blocks_alloc]; omega, fun x hx => ?_, rfl⟩
  have hne : x ≠ d.fresh := by
    rintro rfl
    exact absurd hx.1 (Nat.lt_irrefl _)
  rw [get?_alloc, if_neg hne, hx.2]

theorem leads_remove (d : Document) (parent id : BlockId) : d.Leads (d.remove parent id) :=
  (leads_modify d parent _).trans (leads_foldl_vacate _ _)

theorem leads_insertBlockAt (d : Document) (parent : BlockId) (i : Nat) (b : Block) :
    d.Leads (d.insertBlockAt parent i b) :=
  (leads_alloc d b).trans (leads_modify _ parent _)

/-! ## Exact entries -/

/-- The blocks of the table are the given entries and no others, each under an identifier of its own. -/
structure Exact (d : Document) (es : List (BlockId × Block)) : Prop where
  nodup : (es.map Prod.fst).Nodup
  get?_iff : ∀ id b, d.get? id = some b ↔ (id, b) ∈ es

namespace Exact

variable {d : Document} {es es' : List (BlockId × Block)} {id : BlockId} {b : Block}

theorem perm (h : d.Exact es) (hperm : es.Perm es') : d.Exact es' :=
  ⟨(hperm.map Prod.fst).nodup_iff.mp h.nodup, fun id b => (h.get?_iff id b).trans hperm.mem_iff⟩

theorem holds (h : d.Exact es) : d.Holds es := fun e he => (h.get?_iff e.1 e.2).mpr he

theorem isLive_iff (h : d.Exact es) : d.isLive id ↔ id ∈ es.map Prod.fst := by
  rw [isLive, Option.isSome_iff_exists, mem_map]
  constructor
  · rintro ⟨b, hb⟩
    exact ⟨(id, b), (h.get?_iff id b).mp hb, rfl⟩
  · rintro ⟨e, he, rfl⟩
    exact ⟨e.2, h.holds e he⟩

theorem fresh_notMem (h : d.Exact es) : d.fresh ∉ es.map Prod.fst := by
  rw [← h.isLive_iff, isLive, get?_fresh]
  exact Bool.false_ne_true

theorem notMem_of_cons (h : d.Exact ((id, b) :: es)) : id ∉ es.map Prod.fst :=
  (nodup_cons.mp h.nodup).1

/-- Changing one block changes one entry. -/
theorem modify (h : d.Exact ((id, b) :: es)) (f : Block → Block) : (d.modify id f).Exact ((id, f b) :: es) := by
  have hself := h.notMem_of_cons
  refine ⟨h.nodup, fun x c => ?_⟩
  rw [get?_modify]
  split
  · next heq =>
    subst heq
    have hne : (id, c) ∉ es := fun hmem => hself (mem_map.mpr ⟨_, hmem, rfl⟩)
    rw [h.holds (id, b) mem_cons_self]
    simp [hne, eq_comm]
  · next hne => simp [h.get?_iff, Ne.symm hne]

/-- A block that is taken out of the table takes its entry along. -/
theorem vacate (h : d.Exact ((id, b) :: es)) : (d.vacate id).Exact es := by
  have hself := h.notMem_of_cons
  refine ⟨(nodup_cons.mp h.nodup).2, fun x c => ?_⟩
  rw [get?_vacate]
  split
  · next heq =>
    subst heq
    have hne : (id, c) ∉ es := fun hmem => hself (mem_map.mpr ⟨_, hmem, rfl⟩)
    simp [hne]
  · next hne => simp [h.get?_iff, Ne.symm hne]

/-- Blocks that are taken out of the table take their entries along. -/
theorem foldl_vacate {rest : List (BlockId × Block)} (h : d.Exact (es ++ rest)) {ids : List BlockId}
    (hids : ∀ e ∈ es, e.1 ∈ ids) (hrest : ∀ e ∈ rest, e.1 ∉ ids) : (ids.foldl Document.vacate d).Exact rest := by
  refine ⟨?_, fun x c => ?_⟩
  · have hnodup := h.nodup
    rw [map_append] at hnodup
    exact hnodup.of_append_right
  · rw [get?_foldl_vacate]
    split
    · next hmem => simpa using fun hc => hrest _ hc hmem
    · next hmem =>
      have hes : (x, c) ∉ es := fun hc => hmem (hids _ hc)
      rw [h.get?_iff, mem_append]
      simp [hes]

/-- A new block adds one entry. -/
theorem alloc (h : d.Exact es) (b : Block) : (d.alloc b).Exact ((d.fresh, b) :: es) := by
  have hfresh := h.fresh_notMem
  refine ⟨nodup_cons.mpr ⟨hfresh, h.nodup⟩, fun x c => ?_⟩
  rw [get?_alloc]
  split
  · next heq =>
    subst heq
    have hne : (d.fresh, c) ∉ es := fun hmem => hfresh (mem_map.mpr ⟨_, hmem, rfl⟩)
    simp [hne, eq_comm]
  · next hne => simp [h.get?_iff, hne]

/-- All blocks changed at once, each under its identifier. -/
theorem map {d' : Document} (h : d.Exact es) {f : BlockId → Block → Block}
    (hd' : ∀ id, d'.get? id = (d.get? id).map (f id)) : d'.Exact (es.map fun e => (e.1, f e.1 e.2)) := by
  refine ⟨by simpa [Function.comp_def] using h.nodup, fun x c => ?_⟩
  rw [hd', Option.map_eq_some_iff, mem_map]
  constructor
  · rintro ⟨b, hb, rfl⟩
    exact ⟨(x, b), (h.get?_iff x b).mp hb, rfl⟩
  · rintro ⟨e, he, heq⟩
    cases heq
    exact ⟨e.2, h.holds e he, rfl⟩

end Exact

/-! ## One block with what it holds -/

/-- The table holds a block with the twigs in it, and beside them the entries `rest`. -/
structure Bears (d : Document) (parent : BlockId) (h : Head) (ts : List Twig) (rest : List (BlockId × Block)) : Prop where
  exact : d.Exact ((parent, h.block (ts.map child)) :: (entriesOf ts ++ rest))
  spent : ∀ id ∈ lostOf ts, d.Spent id

namespace Bears

variable {d d' : Document} {parent id : BlockId} {h hd hd' : Head} {ts left right cs cs' : List Twig}
  {rest : List (BlockId × Block)}

section

variable (hb : d.Bears parent h ts rest)
include hb

theorem get?_parent : d.get? parent = some (h.block (ts.map child)) :=
  hb.exact.holds (parent, _) mem_cons_self

theorem childBlocks_parent : d.childBlocks parent = idsOf ts := by
  rw [childBlocks, hb.get?_parent]
  rfl

theorem get?_of_mem (hmem : .block id hd cs ∈ ts) : d.get? id = some (hd.block (cs.map child)) := by
  refine hb.exact.holds (id, _) (mem_cons_of_mem _ (mem_append_left _ ?_))
  exact mem_entriesOf.mpr ⟨_, hmem, by rw [entries]; exact mem_cons_self⟩

theorem get?_of_gone (hmem : .gone id ∈ ts) : d.get? id = none :=
  (hb.spent id (mem_lostOf.mpr ⟨_, hmem, by rw [lost]; exact mem_cons_self⟩)).2

end

/-- The entries of a block that stands in the given one come first. -/
theorem entries_perm (parent id : BlockId) (b : Block) (hd : Head) (left cs right : List Twig)
    (rest : List (BlockId × Block)) :
    ((parent, b) :: (entriesOf (left ++ .block id hd cs :: right) ++ rest)).Perm
      ((id, hd.block (cs.map child)) :: (entriesOf cs ++ ((parent, b) :: (entriesOf left ++ entriesOf right ++ rest)))) := by
  rw [perm_iff_count]
  intro e
  simp only [entriesOf_append, entriesOf, entries, count_cons, count_append, cons_append]
  ring

/-- What stands around a block is kept beside it. -/
theorem enter (hb : d.Bears parent h (left ++ .block id hd cs :: right) rest) :
    d.Bears id hd cs ((parent, h.block ((left ++ .block id hd cs :: right).map child))
      :: (entriesOf left ++ entriesOf right ++ rest)) := by
  refine ⟨hb.exact.perm (entries_perm _ _ _ _ _ _ _ _), fun x hx => hb.spent x ?_⟩
  simp [lostOf, lost, hx]

/-- What was done to a block is done inside of the one around it. -/
theorem leave (hb : d.Bears parent h (left ++ .block id hd cs :: right) rest) (hleads : d.Leads d')
    (hinner : d'.Bears id hd' cs' ((parent, h.block ((left ++ .block id hd cs :: right).map child))
      :: (entriesOf left ++ entriesOf right ++ rest))) :
    d'.Bears parent h (left ++ .block id hd' cs' :: right) rest := by
  have hsame : (left ++ .block id hd cs :: right).map child = (left ++ .block id hd' cs' :: right).map child := by
    simp [child]
  rw [hsame] at hinner
  refine ⟨hinner.exact.perm (entries_perm _ _ _ _ _ _ _ _).symm, fun x hx => ?_⟩
  simp only [lostOf_append, lostOf, lost, mem_append] at hx
  rcases hx with hleft | hcs | hright
  · exact (hb.spent x (by simp [hleft])).leads hleads
  · exact hinner.spent x hcs
  · exact (hb.spent x (by simp [lostOf, hright])).leads hleads

end Bears

end Document

end Stylesheet
