import Stylesheet.Proofs.Document.Stream
import Stylesheet.Proofs.Reader.Importance

/-!
# The stream and the tree are read together

Where the layout of the source is kept, the reader writes down two things at once: the tree, and the stream of what
was read. They are written at many places of the reader, and nothing but care keeps them in step. This module shows
that they are: the blocks that are open in the stream are those that are open in the tree (`Mirrors`), every edit of
the document keeps it that way (`Edit.mirrored`), and so the stream of a stylesheet records its tree
(`exists_outline_records`).

The stream does not record everything. Two stylesheets may have the same stream and different declarations, if a
backslash stands in front of a mark of importance (`stream_not_injective`).
-/

namespace Stylesheet.Reader

open State List Option Document
open Outline (Bracket Scan scan? Records)

variable {o : Options} {s t : State} {r : Scan} {f : Frame} {fs : List Frame}

/-! ## The stream of a document that is changed -/

theorem tokens_modify (d : Document) (id : BlockId) (g : Block → Block) : (d.modify id g).tokens = d.tokens := by
  unfold Document.modify
  split <;> rfl

theorem tokens_addBlock (d : Document) (id : BlockId) (b : Block) : (d.addBlock id b).tokens = d.tokens :=
  tokens_modify _ _ _

section

variable (ho : o.preserveCss = true)
include ho

theorem tokens_pushToken (s : State) (kind : TokenKind) (data : String) :
    (s.pushToken o kind data).document.tokens = s.document.tokens ++ [⟨kind, data⟩] := by
  rw [pushToken, if_pos ho]

theorem tokens_addComment (s : State) (text : List Char) :
    (s.addComment o text).document.tokens = s.document.tokens ++ [⟨.comment, String.ofList text⟩] := by
  unfold addComment
  rw [tokens_pushToken ho]
  congr 1
  exact tokens_modify _ _ _

theorem tokens_addLineAt (s : State) (rule : LineAt) :
    (s.addLineAt o rule).document.tokens = s.document.tokens ++ [⟨.lineAt, rule.render⟩] := by
  rw [← tokens_pushToken ho]
  exact tokens_modify _ _ _

theorem tokens_addDeclaration (s : State) (property : String) (value : Value) :
    (s.addDeclaration o property value).document.tokens
      = s.document.tokens ++ [⟨.property, property⟩] ++ [⟨.value, value.render⟩] := by
  rw [← tokens_pushToken ho s, ← tokens_pushToken ho]
  exact tokens_modify _ _ _

/-- Nothing is gone on with where the source is kept. -/
theorem earlierSelector?_of_preserve (d : Document) (parent : BlockId)
    (name : String) : earlierSelector? o d parent name = none := by
  rw [earlierSelector?, if_pos ho]

theorem tokens_openSelector (s : State) :
    (s.openSelector o).document.tokens = s.document.tokens ++ [⟨.selectorStart, s.selectorName o⟩] := by
  unfold State.openSelector
  simp only [earlierSelector?_of_preserve ho]
  rw [tokens_pushToken ho]
  congr 1
  exact tokens_addBlock _ _ _

theorem tokens_openAtBlock (s : State) (body : List Char) :
    (s.openAtBlock o body).document.tokens
      = s.document.tokens ++ [⟨.atStart, "@" ++ Value.joinParts s.flushPart.parts⟩] := by
  obtain ⟨parts, hflush⟩ := flushPart_eq s
  unfold State.openAtBlock
  rw [tokens_pushToken ho, hflush]
  congr 1
  exact tokens_addBlock _ _ _

theorem tokens_closeBlock {s : State} (hopen : s.openBlocks ≠ []) :
    (s.closeBlock o).document.tokens = s.document.tokens ++
      [⟨if (s.document.get? s.current).any (·.isSelector) then .selectorEnd else .atEnd, ""⟩] := by
  obtain ⟨id, path, hid⟩ := exists_cons_of_ne_nil hopen
  have hcurrent : s.current = id := by rw [current, hid]; rfl
  unfold State.closeBlock
  rw [hid, hcurrent]
  exact tokens_pushToken ho _ _ _

end

/-- What an edit adds to the stream, if there is one. An at-rule without a body is recorded as it is written. -/
theorem Edit.exists_tokens {Allowed : Value → Prop} (h : Edit o Allowed s t) :
    ∃ new : List Token, (∀ token ∈ new, token.kind = .lineAt → token.data ≠ "") ∧
      t.document.tokens = s.document.tokens ++ if o.preserveCss then new else [] := by
  cases h with
  | keep _ htokens => exact ⟨[], by simp, by simp [htokens]⟩
  | comment text =>
    refine ⟨[⟨.comment, String.ofList text⟩], by simp, ?_⟩
    unfold addComment
    rw [pushToken_eq]
    exact congrArg (· ++ _) (tokens_modify _ _ _)
  | lineAt rule =>
    refine ⟨[⟨.lineAt, rule.render⟩], by simpa using rule.render_ne_empty, ?_⟩
    unfold addLineAt
    rw [pushToken_eq]
    exact tokens_modify _ _ _
  | declare property value =>
    refine ⟨[⟨.property, property⟩, ⟨.value, value.render⟩], by simp, ?_⟩
    unfold addDeclaration
    rw [pushToken_eq, pushToken_eq]
    refine (tokens_modify _ _ _).trans ?_
    cases o.preserveCss <;> simp
  | openSelector =>
    refine ⟨[⟨.selectorStart, s.selectorName o⟩], by simp, ?_⟩
    unfold State.openSelector
    rw [pushToken_eq]
    refine congrArg (· ++ _) ?_
    split
    · rfl
    · exact tokens_addBlock _ _ _
  | openAtBlock body =>
    obtain ⟨parts, hflush⟩ := flushPart_eq s
    refine ⟨[⟨.atStart, "@" ++ Value.joinParts s.flushPart.parts⟩], by simp, ?_⟩
    unfold State.openAtBlock
    rw [pushToken_eq, hflush]
    exact congrArg (· ++ _) (tokens_addBlock _ _ _)
  | closeBlock =>
    unfold State.closeBlock
    split
    · exact ⟨[], by simp, by simp⟩
    · next id _ _ =>
      refine ⟨[⟨if (s.document.get? id).any (·.isSelector) then .selectorEnd else .atEnd, ""⟩], ?_, ?_⟩
      · intro token htoken
        rw [mem_singleton.mp htoken]
        dsimp only
        split <;> exact nofun
      · rw [pushToken_eq]

/-- There is no stream where the layout of the source is not kept, and an at-rule without a body in it is not empty. -/
theorem read_tokens (o : Options) (css : String) :
    (o.preserveCss = false → (read o css).1.tokens = []) ∧
      ∀ token ∈ (read o css).1.tokens, token.kind = .lineAt → token.data ≠ "" := by
  refine read_induction css (P := fun s => (o.preserveCss = false → s.document.tokens = []) ∧
    ∀ token ∈ s.document.tokens, token.kind = .lineAt → token.data ≠ "") ⟨fun _ => rfl, nofun⟩ ?_
  intro s t hedit hs
  obtain ⟨new, hnew, htokens⟩ := hedit.exists_tokens
  rw [htokens]
  refine ⟨fun ho => by simp [hs.1 ho, ho], fun token htoken => ?_⟩
  rcases mem_append.mp htoken with hold | hadded
  · exact hs.2 token hold
  · split at hadded
    · exact hnew token hadded
    · exact absurd hadded not_mem_nil

/-! ## The blocks open in the stream and in the tree -/

/-- The stream up to here is read as brackets that tell of the blocks which are open in the tree. Pairs stand inside
of blocks only. -/
structure Mirrors (s : State) (r : Scan) (frames : List Frame) : Prop where
  scan : scan? s.document.tokens = some r
  idle : r.property = none
  builds : s.Builds frames
  tells : List.Forall₂ Bracket.Tells (r.inner :: r.outer) frames
  rootPairs : (r.outer.getLastD r.inner).pairs = []

/-- Which pairs stand outside of blocks does not depend on what else the innermost block holds. -/
theorem pairs_getLastD {b c : Bracket} (h : b.pairs = c.pairs) (outer : List Bracket) :
    (outer.getLastD b).pairs = (outer.getLastD c).pairs := by
  cases outer with
  | nil => exact h
  | cons => rfl

/-- Something is put into the innermost block. -/
theorem Mirrors.put (h : Mirrors s r (f :: fs)) {token : Token} {item : Outline.Item} {n : Node}
    (hnext : r.next token = some { r with inner := r.inner.put item }) (hrecords : Records item n)
    (htokens : t.document.tokens = s.document.tokens ++ [token]) (hbuilds : t.Builds (f.push n :: fs)) :
    Mirrors t { r with inner := r.inner.put item } (f.push n :: fs) := by
  cases h.tells with
  | cons hinner houter =>
    refine ⟨?_, h.idle, hbuilds, .cons (hinner.put hrecords) houter, ?_⟩
    · rw [htokens, Outline.scan?_concat, h.scan, bind_some, hnext]
    · rw [← h.rootPairs]
      exact pairs_getLastD (b := r.inner.put item) (c := r.inner) rfl r.outer

/-- A new innermost block is opened. -/
theorem Mirrors.start (h : Mirrors s r (f :: fs)) (selector : Bool) {token : Token} {name : String}
    {kind : BlockKind} (hnext : r.next token = some (r.start selector name))
    (hkind : selector = (kind != .atBlock)) (htokens : t.document.tokens = s.document.tokens ++ [token])
    (hbuilds : t.Builds ({ name, kind } :: f :: fs)) :
    Mirrors t (r.start selector name) ({ name, kind } :: f :: fs) := by
  refine ⟨?_, rfl, hbuilds, .cons (.start hkind name) h.tells, ?_⟩
  · rw [htokens, Outline.scan?_concat, h.scan, bind_some, hnext]
  · rw [← h.rootPairs]
    show ((r.inner :: r.outer).getLastD _).pairs = _
    rw [getLastD_cons]

/-- A declaration is read into the innermost block, which is not the root. -/
theorem Mirrors.declare (ho : o.preserveCss = true) (h : Mirrors s r (f :: fs)) (hopen : s.openBlocks ≠ [])
    {value : Value} (htext : value.text ≠ "") (honest : value.Honest) (property : String) :
    Mirrors (s.addDeclaration o property value) { r with inner := r.inner.give property value.render }
      (f.declare property value :: fs) := by
  have hbuilds := addDeclaration_builds (o := o) h.builds property value
  have hlength := Document.Builds.length_eq h.builds
  cases h.tells with
  | cons hinner houter =>
    refine ⟨?_, h.idle, hbuilds, .cons (hinner.give htext honest property) houter, ?_⟩
    · rw [tokens_addDeclaration ho, Outline.scan?_concat, Outline.scan?_concat, h.scan, bind_some]
      simp only [Scan.next, h.idle, bind_some, if_true]
    · -- a block is open, so the pair does not go into the root
      obtain ⟨b, outer, hcons⟩ : ∃ b outer, r.outer = b :: outer := by
        refine exists_cons_of_ne_nil fun hnil => hopen ?_
        rw [hnil, forall₂_nil_left_iff] at houter
        rw [houter] at hlength
        exact eq_nil_of_length_eq_zero (by simpa using hlength.symm)
      have hroot := h.rootPairs
      rw [hcons] at hroot ⊢
      exact hroot

/-- The innermost block is closed. -/
theorem Mirrors.close (ho : o.preserveCss = true) {g : Frame} (h : Mirrors s r (f :: g :: fs)) :
    ∃ r', Mirrors (s.closeBlock o) r' (f.close g :: fs) := by
  have hbuilds := closeBlock_builds (o := o) h.builds
  have hopen : s.openBlocks ≠ [] := by
    intro hnil
    have hlength := Document.Builds.length_eq h.builds
    simp [hnil] at hlength
  have hkind := isSelector_current h.builds
  obtain ⟨inner, outer, property⟩ := r
  obtain rfl : property = none := h.idle
  cases h.tells with
  | cons hinner houter =>
    cases houter with
    | @cons b _ outer _ hb houter =>
      have hscan := h.scan
      have hroot := h.rootPairs
      refine ⟨{ inner := b.put inner.item, outer }, ?_, rfl, hbuilds, .cons (hinner.close hb) houter, ?_⟩
      · -- the end has the kind of the block in the tree, which is that of the bracket
        rw [tokens_closeBlock ho hopen, Outline.scan?_concat, hscan, bind_some, hkind]
        have hselector : inner.selector = (f.kind != .atBlock) := hinner.selector_eq
        cases hsel : (f.kind != .atBlock) <;> rw [hsel] at hselector <;>
          simp [Scan.next, Scan.close, hselector]
      · rw [← hroot]
        cases outer with
        | nil => rfl
        | cons => rfl

/-- There is a reading of the stream that tells of the open blocks. -/
def Mirrored (s : State) : Prop := ∃ r frames, Mirrors s r frames

/-- The values of declarations that can be told from a stream. -/
abbrev Recordable (v : Value) : Prop := v.text ≠ "" ∧ v.Honest

/-- An edit changes the stream as it changes the tree. -/
theorem Edit.mirrored (ho : o.preserveCss = true) (h : Edit o Recordable s t) (hs : Mirrored s) : Mirrored t := by
  obtain ⟨r, frames, hs⟩ := hs
  obtain ⟨f, fs, rfl⟩ := hs.builds.exists_cons
  cases h with
  | keep hblocks htokens hopen =>
    exact ⟨r, _, by rw [htokens]; exact hs.scan, hs.idle, hs.builds.congr hblocks hopen, hs.tells, hs.rootPairs⟩
  | comment text =>
    refine ⟨_, _, hs.put ?_ (.comment (String.ofList text)) (tokens_addComment ho s text)
      (addComment_builds hs.builds text)⟩
    rw [Scan.next, hs.idle]
  | lineAt rule =>
    refine ⟨_, _, hs.put ?_ (.lineAt rule) (tokens_addLineAt ho s rule) (addLineAt_builds hs.builds rule)⟩
    rw [Scan.next, hs.idle]
  | declare property value hvalue hopen =>
    exact ⟨_, _, hs.declare ho hopen hvalue.1 hvalue.2 property⟩
  | openSelector =>
    have hnew := openSelector_builds_new hs.builds
      (earlierSelector?_of_preserve ho s.document s.current (s.selectorName o))
    refine ⟨_, _, hs.start true ?_ rfl (tokens_openSelector ho s) hnew⟩
    rw [Scan.next, hs.idle]
  | openAtBlock body =>
    refine ⟨_, _, hs.start false ?_ rfl (tokens_openAtBlock ho s body) (openAtBlock_builds hs.builds body)⟩
    rw [Scan.next, hs.idle]
  | closeBlock =>
    cases fs with
    | cons g fs =>
      obtain ⟨r', hclose⟩ := hs.close ho
      exact ⟨r', _, hclose⟩
    | nil =>
      have hopen : s.openBlocks = [] := by simpa using Document.Builds.length_eq hs.builds
      have hsame : s.closeBlock o = s := by rw [State.closeBlock, hopen]
      rw [hsame]
      exact ⟨r, _, hs⟩

theorem Edits.mirrored (ho : o.preserveCss = true) (h : Edits o Recordable s t) (hs : Mirrored s) : Mirrored t := by
  induction h with
  | refl => exact hs
  | tail _ hedit ih => exact hedit.mirrored ho ih

/-! ## Runs -/

/-- The stream mirrors the tree in front of every step. -/
theorem after_mirrored (ho : o.preserveCss = true) (css : String) (n : Nat) : Mirrored (after o css n).state := by
  induction n with
  | zero => exact ⟨{}, [Frame.root], rfl, rfl, empty_builds, .cons .root .nil, rfl⟩
  | succ n ih =>
    rw [after_succ]
    exact Edits.mirrored ho (next_edits fun hmode d hd => (after_candid ho css n).honest_declaration? ho hmode hd) ih

/-- The stream mirrors the tree at the end of the text. -/
theorem read_mirrored (ho : o.preserveCss = true) (css : String) : Mirrored (((start css).run o).state.finish o) := by
  obtain ⟨n, hn⟩ := run_start_eq_after o css
  have hrest := run_rest o (start css)
  have htracked := Trail.after_tracked o css n
  rw [Trail.reader_after] at htracked
  rw [hn] at hrest ⊢
  have hstring := finishString_candid ho htracked (after_quote o css n) hrest (after_candid ho css n)
  have hcandid := finishBracket_candid hrest hstring
  exact Edits.mirrored ho (finish_edits fun hmode d hd => hcandid.honest_declaration? ho hmode hd)
    (after_mirrored ho css n)

/-- An empty stream records an empty tree. -/
theorem tree_eq_nil_of_tokens (ho : o.preserveCss = true) {css : String} (h : (read o css).1.tokens = []) :
    (read o css).1.tree = [] := by
  obtain ⟨r, frames, hmirrors⟩ := read_mirrored ho css
  have hscan : scan? (read o css).1.tokens = some r := hmirrors.scan
  rw [h] at hscan
  obtain rfl : {} = r := some.inj hscan
  obtain ⟨f, fs, rfl⟩ := hmirrors.builds.exists_cons
  have htree : (read o css).1.tree = (f.closeAll fs).before := Document.Builds.tree_eq hmirrors.builds
  cases hmirrors.tells with
  | cons hinner houter =>
    cases houter
    rw [htree]
    exact forall₂_nil_left_iff.mp hinner.items

/-- **The stream records the tree.** Where the layout of the source is kept, the stream of every stylesheet can be
read as brackets: each end closes a block, and has the kind of the block it closes. Nothing but blocks, comments and
at-rules stands outside of blocks, and what is recorded is the tree, block by block: the kinds and names of blocks,
what stands in each in its order, and the declarations, which are the winners among the pairs. -/
theorem exists_outline_records (o : Options) (css : String) (ho : o.preserveCss = true) :
    ∃ outline, Outline.outline? (Document.read o css).1.tokens = some outline ∧ outline.pairs = [] ∧
      List.Forall₂ Records outline.items (Document.read o css).1.tree := by
  obtain ⟨r, frames, h⟩ := read_mirrored ho css
  obtain ⟨f, fs, rfl⟩ := h.builds.exists_cons
  cases h.tells with
  | cons hinner houter =>
    have hall := hinner.closeAll houter
    refine ⟨Scan.closeAll r.inner r.outer, ?_, ?_, ?_⟩
    · have hscan : scan? (Document.read o css).1.tokens = some r := h.scan
      rw [Outline.outline?, hscan, Option.filter_some, if_pos (by rw [h.idle]; rfl), Option.map_some]
    · rw [Scan.pairs_closeAll, h.rootPairs]
    · have htree : (Document.read o css).1.tree = (f.closeAll fs).before := Document.Builds.tree_eq h.builds
      rw [htree]
      exact hall.items

/-- A stylesheet with blocks that are left open, and with a value that is given up for an important one. -/
theorem exists_outline_records_unclosed :
    ∃ outline, Outline.outline? (Document.read { preserveCss := true }
        "@media x\x7ba\x7bb:c!important;/*e*/b:d").1.tokens = some outline ∧ outline.pairs = [] ∧
      List.Forall₂ Records outline.items (Document.read { preserveCss := true }
        "@media x\x7ba\x7bb:c!important;/*e*/b:d").1.tree :=
  exists_outline_records _ _ rfl

/-! ## What the stream leaves out -/

/-- A mark that is escaped, and so is part of the value. -/
def escapedMark : String := "a\x7bb:c\\!important;b:d\x7d"

/-- A mark in a line of its own, behind one that ends with a backslash. -/
def markBelow : String := "a\x7bb:c\\\n!important;b:d\x7d"

/-- The declarations of the block that was read first. -/
def firstEntries (d : Document) : Option (List Declaration) := (d.get? ⟨1⟩).map (·.declarations.entries)

/-- **The stream does not tell** whether a mark behind a backslash makes a value important: these stylesheets have the
same stream, but the last value wins in one of them, and the first one in the other. -/
theorem stream_not_injective :
    (Document.read { preserveCss := true } escapedMark).1.tokens
      = (Document.read { preserveCss := true } markBelow).1.tokens ∧
    firstEntries (Document.read { preserveCss := true } escapedMark).1 = some [("b", ⟨"d", false⟩)] ∧
    firstEntries (Document.read { preserveCss := true } markBelow).1 = some [("b", ⟨"c\\", true⟩)] := by
  refine ⟨?_, ?_, ?_⟩
  · trans [⟨.selectorStart, "a"⟩, ⟨.property, "b"⟩, ⟨.value, "c\\!important"⟩, ⟨.property, "b"⟩, ⟨.value, "d"⟩,
      ⟨.selectorEnd, ""⟩]
    · exact read_view (·.tokens) _ escapedMark 14 (by decide +kernel) (by decide +kernel)
    · exact (read_view (·.tokens) _ markBelow 14 (by decide +kernel) (by decide +kernel)).symm
  · exact read_view firstEntries _ escapedMark 14 (by decide +kernel) (by decide +kernel)
  · exact read_view firstEntries _ markBelow 14 (by decide +kernel) (by decide +kernel)

end Stylesheet.Reader
