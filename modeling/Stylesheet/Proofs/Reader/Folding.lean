import Stylesheet.Proofs.Reader.Stream
import Stylesheet.Proofs.Reader.Strict
import Stylesheet.Proofs.Reader.Table
import Mathlib.Data.List.Chain

/-!
# Selectors that go on with others

A selector with the name of the one in front of it goes on with that block, unless the layout of the source is kept. So
no two neighbours in what has been read are selectors of one name, and where all selectors are merged, no two siblings
are (`read_folded`). The name is looked up once, when the selector is opened, in a list of children that grows on.

For a block, `Document.siblingNames` lists what can be gone on with. `Named` says that a condition holds for the lists of
all blocks, and `Edit.named` that it is kept if it is kept by one more name.
-/

namespace Stylesheet

open List Option

namespace Document

/-- The name of a child that is a selector. -/
def selectorName? (d : Document) (c : Child) : Option String :=
  (c.blockId?.bind d.get?).bind fun b => if b.isSelector then some b.name else none

/-- The children of a block without comments, each with its name if it is a selector. -/
def siblingNames (d : Document) (b : Block) : List (Option String) :=
  (b.children.filter (!·.isComment)).map d.selectorName?

/-- No two neighbours in a block are selectors of one name. -/
def Folded (d : Document) : Prop :=
  ∀ b ∈ d.liveBlocks, (d.siblingNames b).IsChain fun x y => x = y → x = none

/-- No two children of a block are selectors of one name. -/
def FoldedThroughout (d : Document) : Prop := ∀ b ∈ d.liveBlocks, (b.children.filterMap d.selectorName?).Nodup

/-- How many blocks are selectors. -/
def selectorCount (d : Document) : Nat := d.liveBlocks.countP Block.isSelector

variable {d d' : Document} {id : BlockId} {b : Block} {name : String} {f : Block → Block}

theorem selectorName?_block : d.selectorName? (.block id) = some name ↔ Reader.State.isSelectorNamed d name id = true := by
  rw [selectorName?, Reader.State.isSelectorNamed, Child.blockId?, bind_some]
  cases d.get? id with
  | none => simp
  | some b => simp

theorem filterMap_siblingNames (d : Document) (b : Block) :
    (d.siblingNames b).filterMap (fun x => x) = b.children.filterMap d.selectorName? := by
  rw [siblingNames, filterMap_map, filterMap_filter]
  refine filterMap_congr fun c _ => ?_
  cases c <;> rfl

/-- Only the names and kinds of the children matter. -/
theorem siblingNames_congr (h : ∀ c ∈ b.childBlocks, (d'.get? c).map (fun x => (x.name, x.kind))
    = (d.get? c).map fun x => (x.name, x.kind)) : d'.siblingNames b = d.siblingNames b := by
  refine map_congr_left fun c hc => ?_
  cases c with
  | lineAt rule => rfl
  | comment text => rfl
  | block id =>
    have hsame := h id (mem_filterMap.mpr ⟨_, mem_of_mem_filter hc, rfl⟩)
    rw [selectorName?, selectorName?, Child.blockId?, bind_some, bind_some]
    cases hget : d.get? id with
    | none =>
      rw [hget, map_none, map_eq_none_iff] at hsame
      rw [hsame]
    | some x =>
      rw [hget, map_some] at hsame
      obtain ⟨x', hx', heq⟩ := map_eq_some_iff.mp hsame
      obtain ⟨hname, hkind⟩ := Prod.mk.inj heq
      have hselector : x'.isSelector = x.isSelector := by rw [Block.isSelector, hkind, Block.isSelector]
      rw [hx', bind_some, bind_some, hselector, hname]

/-! ## Names in all blocks -/

/-- A condition holds for the names in every block, and whatever a block refers to has been given out. -/
structure Named (P : List (Option String) → Prop) (d : Document) : Prop where
  ranged : ∀ id b, d.get? id = some b → ∀ c ∈ b.childBlocks, c.index < d.blocks.size
  names : ∀ id b, d.get? id = some b → P (d.siblingNames b)

namespace Named

variable {P : List (Option String) → Prop}

theorem congr (h : d.Named P) (hblocks : d'.blocks = d.blocks) : d'.Named P := by
  have hget (id : BlockId) : d'.get? id = d.get? id := by rw [get?, hblocks, get?]
  refine ⟨fun id b hb => ?_, fun id b hb => ?_⟩
  · rw [hblocks]
    exact h.ranged id b (hget id ▸ hb)
  · rw [siblingNames_congr (d := d) fun c _ => by rw [hget]]
    exact h.names id b (hget id ▸ hb)

/-- A block is changed in anything but its name. -/
theorem modify (h : d.Named P) (hf : ∀ b, (f b).name = b.name ∧ (f b).kind = b.kind)
    (hchildren : ∀ b, d.get? id = some b →
      (∀ c ∈ (f b).childBlocks, c.index < d.blocks.size) ∧ P (d.siblingNames (f b))) : (d.modify id f).Named P := by
  have hsame (b : Block) : (d.modify id f).siblingNames b = d.siblingNames b := by
    refine siblingNames_congr fun c _ => ?_
    rw [get?_modify]
    split
    · rw [Option.map_map]
      refine congrArg₂ Option.map (funext fun x => ?_) rfl
      exact congrArg₂ Prod.mk (hf x).1 (hf x).2
    · rfl
  refine ⟨fun x c hc => ?_, fun x c hc => ?_⟩
  · rw [size_blocks_modify]
    rw [get?_modify] at hc
    split at hc
    · next heq =>
      subst heq
      obtain ⟨b, hb, rfl⟩ := map_eq_some_iff.mp hc
      exact (hchildren b hb).1
    · exact h.ranged x c hc
  · rw [hsame]
    rw [get?_modify] at hc
    split at hc
    · next heq =>
      subst heq
      obtain ⟨b, hb, rfl⟩ := map_eq_some_iff.mp hc
      exact (hchildren b hb).2
    · exact h.names x c hc

/-- What is in range is named in the same way when there is one more block. -/
theorem siblingNames_alloc (hb : ∀ c ∈ b.childBlocks, c.index < d.blocks.size) (new : Block) :
    (d.alloc new).siblingNames b = d.siblingNames b := by
  refine siblingNames_congr fun c hc => ?_
  have hne : c ≠ d.fresh := by
    rintro rfl
    exact absurd (hb _ hc) (Nat.lt_irrefl _)
  rw [get?_alloc, if_neg hne]

theorem alloc (h : d.Named P) (hnil : P []) (new : Block) (hnew : new.children = []) : (d.alloc new).Named P := by
  have hempty : new.childBlocks = [] := by rw [Block.childBlocks, hnew]; rfl
  refine ⟨fun id b hb c hc => ?_, fun id b hb => ?_⟩
  · rw [size_blocks_alloc]
    rw [get?_alloc] at hb
    split at hb
    · rw [← some.inj hb, hempty] at hc
      cases hc
    · exact Nat.lt_succ_of_lt (h.ranged id b hb c hc)
  · rw [get?_alloc] at hb
    split at hb
    · rw [← some.inj hb, siblingNames, hnew]
      exact hnil
    · rw [siblingNames_alloc (h.ranged id b hb)]
      exact h.names id b hb

/-- A child that is no block is put at the end of a block. -/
theorem pushPlain (h : d.Named P) (hplain : ∀ l, P l → P (l ++ [none])) (id : BlockId) {c : Child}
    (hc : c.blockId? = none) : (d.pushChild id c).Named P := by
  refine h.modify (fun b => ⟨rfl, rfl⟩) fun b hb => ?_
  have hids : (b.pushChild c).childBlocks = b.childBlocks := by
    simp [Block.childBlocks, Block.pushChild, filterMap_append, hc]
  refine ⟨hids ▸ h.ranged id b hb, ?_⟩
  have hold := h.names id b hb
  cases c with
  | block x => cases hc
  | lineAt rule =>
    have hnone : d.selectorName? (.lineAt rule) = none := rfl
    simpa [siblingNames, Block.pushChild, Child.isComment, hnone] using hplain _ hold
  | comment text => simpa [siblingNames, Block.pushChild, Child.isComment] using hold

/-- A new block is put at the end of another one. -/
theorem addBlock (h : d.Named P) (hnil : P []) (hlive : d.isLive id) {new : Block} (hnew : new.children = [])
    (hnext : ∀ b, d.get? id = some b →
      P (d.siblingNames b ++ [if new.isSelector then some new.name else none])) : (d.addBlock id new).Named P := by
  refine (h.alloc hnil new hnew).modify (fun b => ⟨rfl, rfl⟩) fun b hb => ?_
  have hne : id ≠ d.fresh := by
    rintro rfl
    rw [isLive, get?_fresh] at hlive
    cases hlive
  have hget : d.get? id = some b := by rwa [get?_alloc, if_neg hne] at hb
  have hids : (b.pushChild (.block d.fresh)).childBlocks = b.childBlocks ++ [d.fresh] := by
    simp [Block.childBlocks, Block.pushChild, Child.blockId?]
  constructor
  · rw [hids, size_blocks_alloc]
    intro c hc
    rcases mem_append.mp hc with hc | hc
    · exact Nat.lt_succ_of_lt (h.ranged id b hget c hc)
    · rw [mem_singleton.mp hc]
      exact Nat.lt_succ_self _
  · have hlast : (d.alloc new).selectorName? (.block d.fresh) = if new.isSelector then some new.name else none := by
      simp [selectorName?, Child.blockId?, get?_alloc]
    have hsplit : (d.alloc new).siblingNames (b.pushChild (.block d.fresh))
        = d.siblingNames b ++ [if new.isSelector then some new.name else none] := by
      rw [← siblingNames_alloc (h.ranged id b hget) new, ← hlast]
      simp [siblingNames, Block.pushChild, Child.isComment]
    rw [hsplit]
    exact hnext b hget

end Named

/-! ## Counting selectors -/

theorem selectorCount_eq (d : Document) : d.selectorCount = d.blocks.toList.countP (·.any Block.isSelector) := by
  rw [selectorCount, liveBlocks, countP_filterMap]
  refine countP_congr fun x _ => ?_
  cases x <;> rfl

theorem selectorCount_modify (hf : ∀ b, (f b).kind = b.kind) : (d.modify id f).selectorCount = d.selectorCount := by
  rw [selectorCount_eq, selectorCount_eq]
  unfold modify
  split
  · next b hb =>
    have hlt : id.index < d.blocks.toList.length := by simpa using index_lt_of_get? hb
    have hget : d.blocks.toList[id.index] = some b := by
      have hjoin := join_eq_some_iff.mp hb
      rw [← Array.getElem?_toList, getElem?_eq_getElem hlt] at hjoin
      exact some.inj hjoin
    have hselector : (f b).isSelector = b.isSelector := by rw [Block.isSelector, hf, Block.isSelector]
    rw [Array.toList_setIfInBounds, countP_set hlt, hget, any_some, any_some, hselector]
    split
    · next htrue =>
      have hpos : 0 < d.blocks.toList.countP (·.any Block.isSelector) :=
        countP_pos_iff.mpr ⟨some b, hget ▸ getElem_mem hlt, htrue⟩
      omega
    · rfl
  · rfl

theorem selectorCount_addBlock (d : Document) (id : BlockId) (new : Block) :
    (d.addBlock id new).selectorCount = d.selectorCount + if new.isSelector then 1 else 0 := by
  have hpush : (d.addBlock id new).selectorCount = (d.alloc new).selectorCount :=
    selectorCount_modify (f := (·.pushChild (.block d.fresh))) fun _ => rfl
  rw [hpush, selectorCount_eq, selectorCount_eq, alloc, Array.toList_push, countP_append, countP_singleton]
  rfl

theorem selectorCount_congr (hblocks : d'.blocks = d.blocks) : d'.selectorCount = d.selectorCount := by
  rw [selectorCount_eq, hblocks, selectorCount_eq]

end Document

namespace Reader

open Document State

variable {o : Options} {Allowed : Value → Prop} {s t : State} {P : List (Option String) → Prop}

/-! ## What is not gone on with -/

/-- The last of the names is that of the last child that is no comment. -/
theorem getLast?_siblingNames (d : Document) (b : Block) :
    (d.siblingNames b).getLast? = (b.children.reverse.find? (!·.isComment)).map d.selectorName? := by
  rw [siblingNames, getLast?_map, ← head?_reverse, ← filter_reverse, head?_filter]

/-- Where nothing is gone on with, the selector in front has another name, and so have all where all are merged. -/
theorem of_earlierSelector?_eq_none (ho : o.preserveCss = false) {d : Document} {id : BlockId} {b : Block} {name : String}
    (hget : d.get? id = some b) (h : earlierSelector? o d id name = none) :
    some name ∉ (d.siblingNames b).getLast? ∧
      (o.mergeSelectors = .all → some name ∉ d.siblingNames b) := by
  rw [earlierSelector?, if_neg (by simp [ho])] at h
  simp only [hget, map_some, getD_some] at h
  split at h
  · cases h
  · next hprevious =>
    constructor
    · intro hmem
      rw [getLast?_siblingNames] at hmem
      obtain ⟨c, hc, hname⟩ := map_eq_some_iff.mp hmem
      cases c with
      | lineAt rule => cases hname
      | comment text => cases hname
      | block x =>
        rw [selectorName?_block] at hname
        rw [hc] at hprevious
        simp [Child.blockId?, hname] at hprevious
    · intro hall hmem
      rw [if_pos hall, find?_eq_none] at h
      obtain ⟨c, hc, hname⟩ := mem_map.mp hmem
      cases c with
      | lineAt rule => cases hname
      | comment text => cases hname
      | block x =>
        refine h x ?_ (selectorName?_block.mp hname)
        rw [childBlocks, hget]
        exact mem_filterMap.mpr ⟨_, mem_of_mem_filter hc, rfl⟩

/-! ## Edits -/

/-- **An edit keeps the names of siblings in order**, if one more sibling does. -/
theorem Edit.named (h : Edit o Allowed s t) (hbuilds : ∃ frames, s.Builds frames) (hnil : P [])
    (hplain : ∀ l, P l → P (l ++ [none]))
    (hnext : ∀ d id b name, earlierSelector? o d id name = none → d.get? id = some b → P (d.siblingNames b) →
      P (d.siblingNames b ++ [some name])) (hs : s.document.Named P) : t.document.Named P := by
  obtain ⟨frames, hbuilds⟩ := hbuilds
  have hlive := hbuilds.isLive_current
  cases h with
  | keep hblocks => exact hs.congr hblocks
  | comment text => exact (hs.pushPlain hplain s.current rfl).congr (blocks_pushToken _ _ _)
  | lineAt rule =>
    have htoken : (s.pushToken o .lineAt rule.render).document.Named P := hs.congr (blocks_pushToken _ _ _)
    exact htoken.pushPlain hplain _ rfl
  | declare property value =>
    have htokens : ((s.pushToken o .property property).pushToken o .value value.render).document.Named P :=
      hs.congr (by rw [blocks_pushToken, blocks_pushToken])
    exact htokens.modify (fun _ => ⟨rfl, rfl⟩) fun b hb => ⟨htokens.ranged _ b hb, htokens.names _ b hb⟩
  | openAtBlock body =>
    obtain ⟨parts, hflush⟩ := flushPart_eq s
    unfold State.openAtBlock
    rw [hflush]
    refine Named.congr (hs.addBlock hnil hlive rfl fun b hb => ?_) (blocks_pushToken _ _ _)
    exact hplain _ (hs.names _ b hb)
  | openSelector =>
    unfold State.openSelector
    refine Named.congr ?_ (blocks_pushToken _ _ _)
    split
    · exact hs
    · next hnone => exact hs.addBlock hnil hlive rfl fun b hb => hnext _ _ b _ hnone hb (hs.names _ b hb)
  | closeBlock =>
    unfold State.closeBlock
    split
    · exact hs
    · exact hs.congr (blocks_pushToken _ _ _)

/-- What holds for no names, and is kept by one more sibling, holds for the names in every block that is read. -/
theorem read_named (o : Options) (css : String) (hnil : P []) (hplain : ∀ l, P l → P (l ++ [none]))
    (hnext : ∀ d id b name, earlierSelector? o d id name = none → d.get? id = some b → P (d.siblingNames b) →
      P (d.siblingNames b ++ [some name])) : (read o css).1.Named P := by
  have hempty : empty.Named P := by
    have hroot {id : BlockId} {b : Block} (hget : empty.get? id = some b) : b.children = [] := by
      obtain ⟨index⟩ := id
      cases index with
      | zero => rw [← some.inj hget]
      | succ index => simp [get?, empty] at hget
    refine ⟨fun id b hget c hc => ?_, fun id b hget => ?_⟩
    · rw [Block.childBlocks, hroot hget] at hc
      cases hc
    · rw [siblingNames, hroot hget]
      exact hnil
  have hall := read_induction (o := o) css (P := fun s => (∃ frames, s.Builds frames) ∧ s.document.Named P)
    ⟨⟨_, empty_builds⟩, hempty⟩ fun _ _ hedit hs => ⟨hedit.builds hs.1, hedit.named hs.1 hnil hplain hnext hs.2⟩
  exact hall.2

/-- Where the source is kept, a block is opened for every selector that is recorded. -/
theorem Edit.selectorCount (ho : o.preserveCss = true) (h : Edit o Allowed s t)
    (hs : s.document.selectorCount = s.document.tokens.countP (·.kind == .selectorStart)) :
    t.document.selectorCount = t.document.tokens.countP (·.kind == .selectorStart) := by
  cases h with
  | keep hblocks htokens => rw [selectorCount_congr hblocks, htokens, hs]
  | comment text =>
    rw [tokens_addComment ho, countP_append, ← hs]
    unfold addComment
    rw [selectorCount_congr (blocks_pushToken _ _ _)]
    exact selectorCount_modify (f := (·.pushChild (.comment (String.ofList text)))) fun _ => rfl
  | lineAt rule =>
    rw [tokens_addLineAt ho, countP_append, ← hs]
    unfold addLineAt
    refine (selectorCount_modify (f := (·.pushChild (.lineAt rule))) fun _ => rfl).trans ?_
    exact selectorCount_congr (blocks_pushToken _ _ _)
  | declare property value =>
    rw [tokens_addDeclaration ho, countP_append, countP_append, ← hs]
    unfold addDeclaration
    refine (selectorCount_modify (f := fun b => { b with
      declarations := b.declarations.insert property value }) fun _ => rfl).trans ?_
    exact selectorCount_congr (by rw [blocks_pushToken, blocks_pushToken])
  | openAtBlock body =>
    rw [tokens_openAtBlock ho, countP_append, ← hs]
    obtain ⟨parts, hflush⟩ := flushPart_eq s
    unfold State.openAtBlock
    rw [selectorCount_congr (blocks_pushToken _ _ _), hflush]
    exact selectorCount_addBlock _ _ _
  | openSelector =>
    rw [tokens_openSelector ho, countP_append, ← hs]
    unfold State.openSelector
    simp only [earlierSelector?_of_preserve ho]
    rw [selectorCount_congr (blocks_pushToken _ _ _)]
    exact selectorCount_addBlock _ _ _
  | closeBlock =>
    by_cases hopen : s.openBlocks = []
    · simpa [State.closeBlock, hopen] using hs
    · rw [tokens_closeBlock ho hopen, countP_append, ← hs]
      have hend : countP (fun token : Token => token.kind == .selectorStart)
          [⟨if (s.document.get? s.current).any (·.isSelector) then .selectorEnd else .atEnd, ""⟩] = 0 := by
        split <;> rfl
      rw [hend]
      refine selectorCount_congr ?_
      unfold State.closeBlock
      split
      · rfl
      · exact blocks_pushToken _ _ _

/-- **Nothing that could be gone on with is left.** Unless the layout of the source is kept, no two neighbours in what
has been read are selectors of one name, and no two siblings where all selectors are merged. Where the layout is kept, no
selector goes on with another one. -/
theorem read_folded (o : Options) (css : String) :
    let d := (Document.read o css).1
    (o.preserveCss = false → d.Folded ∧ (o.mergeSelectors = .all → d.FoldedThroughout)) ∧
      (o.preserveCss = true → d.selectorCount = d.tokens.countP (·.kind == .selectorStart)) := by
  intro d
  refine ⟨fun ho => ⟨?_, fun hall => ?_⟩, fun ho => ?_⟩
  · have hnamed : d.Named fun l => l.IsChain fun x y => x = y → x = none := by
      refine read_named o css .nil (fun l hl => ?_) fun d id b name hnone hget hl => ?_
      · exact List.isChain_append.mpr ⟨hl, .singleton _, by simp⟩
      · have hlast := (of_earlierSelector?_eq_none ho hget hnone).1
        refine List.isChain_append.mpr ⟨hl, .singleton _, fun x hx y hy hxy => ?_⟩
        rw [hxy, ← Option.some.inj hy] at hx
        exact absurd hx hlast
    intro b hb
    obtain ⟨id, hget⟩ := Document.mem_liveBlocks.mp hb
    exact hnamed.names id b hget
  · have hnamed : d.Named fun l => (l.filterMap fun x => x).Nodup := by
      refine read_named o css List.nodup_nil (fun l hl => by simpa using hl) fun d id b name hnone hget hl => ?_
      have hother := (of_earlierSelector?_eq_none ho hget hnone).2 hall
      rw [List.filterMap_append, List.nodup_append]
      refine ⟨hl, by simp, fun x hx y hy => ?_⟩
      rintro rfl
      obtain rfl : x = name := by simpa using hy
      exact hother (by simpa using hx)
    intro b hb
    obtain ⟨id, hget⟩ := Document.mem_liveBlocks.mp hb
    rw [← Document.filterMap_siblingNames]
    exact hnamed.names id b hget
  · exact read_induction css (P := fun s => s.document.selectorCount = s.document.tokens.countP (·.kind == .selectorStart))
      rfl fun _ _ hedit => hedit.selectorCount ho

end Reader

end Stylesheet
