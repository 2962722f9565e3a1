import Stylesheet.Proofs.Reader.AtSigns
import Stylesheet.Proofs.RoundTrip.Nodes

/-!
# The two layouts of a tree

The layout with space ends every declaration with a semicolon. The other one leaves out the semicolon behind the last
declaration of a block, also where a rule stands behind it: the at-sign of that rule is then read as part of the value.

So the two layouts of a tree of words are read as the same tree if no block holds both declarations and other nodes, and
only then: a layout with space keeps every at-rule, and one without loses the rule behind such a declaration.
-/

namespace Stylesheet

open Text (IsWord IsPhrase IsName isOrdinary joinWith)
open Reader (IsPlainEntry)
open List
open String (intercalate toList_append)

/-! ## Counting characters of a text -/

/-- How often a character occurs in a text. -/
def occurrences (x : Char) (text : String) : Nat := text.toList.count x

/-- A character that is in no word and does not separate words either. -/
def IsForeign (x : Char) : Prop := x = '@' ∨ x = '\r'

variable {text : String} {ds : Declarations} {n : Node} {ns children : List Node}
variable {x : Char}

theorem IsForeign.absent (hx : IsForeign x) (hat : occurrences '@' text = 0)
    (hreturn : occurrences '\r' text = 0) : occurrences x text = 0 := by
  rcases hx with rfl | rfl
  · exact hat
  · exact hreturn

theorem occurrences_append (x : Char) (a b : String) : occurrences x (a ++ b) = occurrences x a + occurrences x b := by
  rw [occurrences, toList_append, count_append]
  rfl

theorem occurrences_intercalate {sep : String} (hsep : occurrences x sep = 0) (texts : List String) :
    occurrences x (intercalate sep texts) = (texts.map (occurrences x)).sum := by
  induction texts with
  | nil =>
    rw [String.intercalate_nil]
    rfl
  | cons text texts ih =>
    cases texts with
    | nil => simp [String.intercalate_singleton]
    | cons next texts =>
      rw [String.intercalate_cons_cons, occurrences_append, occurrences_append, hsep, ih, Nat.add_zero]
      rfl

theorem occurrences_eq_zero (h : ∀ c ∈ text.toList, c ≠ x) : occurrences x text = 0 :=
  count_eq_zero.mpr fun hmem => h x hmem rfl

theorem occurrences_of_chars (hx : IsForeign x)
    (h : ∀ c ∈ text.toList, (isOrdinary c = true ∧ c ≠ '\r') ∨ c = ' ' ∨ c = ',') : occurrences x text = 0 := by
  refine occurrences_eq_zero fun c hc => ?_
  rcases h c hc with ⟨hordinary, hreturn⟩ | rfl | rfl
  · rcases hx with rfl | rfl
    · exact Text.ne_of_isOrdinary hordinary (by decide)
    · exact hreturn
  · rcases hx with rfl | rfl <;> decide
  · rcases hx with rfl | rfl <;> decide

theorem occurrences_of_isBlank (hx : IsForeign x) (h : Reader.IsBlank text) : occurrences x text = 0 := by
  refine occurrences_eq_zero fun c hc => ?_
  rcases h c hc with rfl | rfl <;> rcases hx with rfl | rfl <;> decide

theorem occurrences_joinWith (hx : IsForeign x) {words : List String} (h : ∀ w ∈ words, IsWord w) :
    occurrences x (joinWith " " words) = 0 := by
  rw [← Value.joinParts_eq_joinWith h]
  exact occurrences_of_chars hx (Value.chars_joinParts fun w hw => .inl (h w hw))

theorem occurrences_of_isWord (hx : IsForeign x) {word : String} (h : IsWord word) : occurrences x word = 0 :=
  occurrences_eq_zero fun c hc => by
    rcases hx with rfl | rfl
    · exact Text.ne_of_isOrdinary (h.ordinary c hc) (by decide)
    · exact fun hreturn => h.noReturn (hreturn ▸ hc)

/-! ## Counting at-signs of a written tree -/

section Layout

variable {l : Layout} {body : Keyword.AtBody} {depth : Nat}

theorem occurrences_space (hx : IsForeign x) (l : Layout) : occurrences x l.space = 0 := by
  unfold Layout.space
  split <;> exact hx.absent rfl rfl

theorem occurrences_entry (hx : IsForeign x) {e : Declaration} (h : IsPlainEntry e) : occurrences x (l.entry e) = 0 := by
  obtain ⟨hproperty, parts, -, hparts, htext⟩ := h
  have hvalue : occurrences x e.2.text = 0 := by
    rw [htext]
    exact occurrences_of_chars hx (Value.chars_joinParts hparts)
  have hmark : occurrences x (l.mark e.2) = 0 := by
    unfold Layout.mark Layout.space
    split
    · split <;> exact hx.absent rfl rfl
    · rfl
  have hcolon : occurrences x ":" = 0 := hx.absent rfl rfl
  simp only [Layout.entry, occurrences_append, occurrences_of_isWord hx hproperty, hcolon, occurrences_space hx, hvalue,
    hmark]

theorem occurrences_declarations (hx : IsForeign x) (hl : l.spacious = false)
    (h : ∀ e ∈ ds.entries, IsPlainEntry e) : occurrences x (l.declarations depth ds) = 0 := by
  have hzero : (ds.entries.map l.entry).map (occurrences x) = ds.entries.map fun _ => 0 := by
    rw [map_map]
    exact map_congr_left fun e he => occurrences_entry hx (h e he)
  have hsep : occurrences x ";" = 0 := hx.absent rfl rfl
  rw [Layout.declarations_compact hl, occurrences_intercalate hsep, hzero]
  simp

/-- The node is written with one at-sign for each at-rule, and without carriage returns. -/
def Signed (l : Layout) (depth : Nat) (n : Node) : Prop :=
  ∃ text, l.node depth n = some text ∧ ∀ x, IsForeign x → occurrences x text = if x = '@' then n.atRules else 0

theorem Signed.exists_text (h : Signed l depth n) : ∃ text, l.node depth n = some text :=
  h.imp fun _ => And.left

theorem occurrences_nodes (h : ∀ n ∈ ns, Signed l depth n) (hx : IsForeign x) :
    occurrences x (intercalate l.newline (l.nodes depth ns)) = if x = '@' then Node.atRulesIn ns else 0 := by
  rw [occurrences_intercalate (occurrences_of_isBlank hx (Reader.isBlank_newline l))]
  induction ns with
  | nil => simp [Layout.nodes, Node.atRulesIn]
  | cons n ns ih =>
    obtain ⟨text, htext, hsigns⟩ := h n mem_cons_self
    rw [Layout.nodes, htext, Option.toList_some, singleton_append, map_cons, sum_cons, hsigns x hx,
      ih fun m hm => h m (mem_cons_of_mem _ hm), Node.atRulesIn]
    split <;> rfl

/-- A block is written with the at-sign of its name and those of the nodes in it. -/
theorem signed_block (hl : l.spacious = false) {name : String} {kind : BlockKind}
    (hname : ∀ x, IsForeign x → occurrences x name = if x = '@' ∧ kind = .atBlock then 1 else 0)
    (hwritten : ds.entries ≠ [] ∨ children ≠ [] ∧ kind = .atBlock) (hentries : ∀ e ∈ ds.entries, IsPlainEntry e)
    (hchildren : ∀ n ∈ children, Signed l (depth + 1) n) : Signed l depth (.block name kind ds children) := by
  have hblock : ds.entries ≠ [] ∨ l.nodes (depth + 1) children ≠ [] ∧ Block.isSelector ⟨name, kind, ds, []⟩ = false := by
    refine hwritten.imp_right fun ⟨hne, hkind⟩ => ⟨?_, ?_⟩
    · exact Reader.nodes_ne_nil (fun n hn => (hchildren n hn).exists_text) hne
    · rw [hkind]
      rfl
  obtain ⟨gap, hgap, heq⟩ := Reader.block_eq l depth ⟨name, kind, ds, []⟩ hblock
  refine ⟨_, heq, fun x hx => ?_⟩
  have hnewline := occurrences_of_isBlank hx (Reader.isBlank_newline l)
  have hindent := occurrences_of_isBlank hx (Reader.isBlank_indent l depth)
  have hgap' : occurrences x gap = 0 := by
    rcases hgap with rfl | rfl
    · exact hnewline
    · rfl
  have hopen : occurrences x "\x7b" = 0 := hx.absent rfl rfl
  have hclose : occurrences x "\x7d" = 0 := hx.absent rfl rfl
  simp only [occurrences_append, hname x hx, occurrences_space hx, hopen, hclose, hnewline, hindent, hgap',
    occurrences_declarations hx hl hentries, occurrences_nodes hchildren hx, Node.atRules]
  by_cases hat : x = '@'
  · simp only [hat, true_and, if_true]
    omega
  · simp only [hat, false_and, if_false]

theorem occurrences_keyword {words : List String} (hwords : ∀ w ∈ words, IsWord w) (hx : IsForeign x) :
    occurrences x ("@" ++ joinWith " " words) = if x = '@' then 1 else 0 := by
  rw [occurrences_append, occurrences_joinWith hx hwords]
  rcases hx with rfl | rfl <;> rfl

/-- **A tree of words** is written with one at-sign for each at-rule. -/
theorem signed_of_fits (hl : l.spacious = false) (h : n.Fits body) (depth : Nat) : Signed l depth n := by
  induction h generalizing depth with
  | selector hname hne hentries _ ih =>
    refine signed_block hl (fun x hx => ?_) (.inl hne) hentries fun n hn => ih n hn _
    rw [occurrences_of_chars hx hname.chars, if_neg (by simp)]
  | declarations hwords _ hne hentries _ ih =>
    refine signed_block hl (fun x hx => ?_) (.inl hne) hentries fun n hn => ih n hn _
    simp only [occurrences_keyword hwords hx, and_true]
  | rules hwords _ hne _ ih =>
    refine signed_block hl (fun x hx => ?_) (.inr ⟨hne, rfl⟩) (by simp [Declarations.empty]) fun n hn => ih n hn _
    simp only [occurrences_keyword hwords hx, and_true]
  | @lineAt body rule h =>
    refine ⟨_, rfl, fun x hx => ?_⟩
    obtain ⟨name, value⟩ := rule
    obtain ⟨hname, -, words, hwords, rfl⟩ := h
    have hall : ∀ w ∈ name :: words, IsWord w := by
      intro w hw
      rcases mem_cons.mp hw with rfl | hw
      · exact hname
      · exact hwords w hw
    have hsemicolon : occurrences x ";" = 0 := hx.absent rfl rfl
    rw [occurrences_append, occurrences_append, occurrences_of_isBlank hx (Reader.isBlank_indent l depth),
      occurrences_of_isBlank hx (Reader.isBlank_newline l), Reader.render_lineAt hwords, occurrences_append,
      occurrences_keyword hall hx, hsemicolon, Node.atRules, Nat.zero_add, Nat.add_zero]

end Layout

/-! ## At-rules of a tree that is read -/

namespace Frame

theorem atRulesIn_comments (h : ∀ n ∈ ns, n.isComment = true) : Node.atRulesIn ns = 0 := by
  induction ns with
  | nil => rfl
  | cons n ns ih =>
    have hn : n.atRules = 0 := by
      cases n with
      | comment text => rfl
      | _ => exact absurd (h _ mem_cons_self) (by simp [Node.isComment])
    rw [Node.atRulesIn, hn, ih fun x hx => h x (mem_cons_of_mem _ hx)]

/-- A selector starts no at-rule, and none is lost where it goes on with an earlier block. -/
theorem atRules_enter {f : Frame} (hafter : f.after = []) (name : String) (fs : List Frame) :
    atRules ((f.enter name).1 :: (f.enter name).2 :: fs) = atRules (f :: fs) := by
  have hfresh : atRules ({ name, kind := .selector (Reader.State.fragmentsOf name) } :: f :: fs) = atRules (f :: fs) := by
    simp only [atRules, own, inside, Node.atRulesIn, reduceCtorEq, and_false, if_false]
    omega
  unfold enter
  split
  · next last fragments ds children left hdrop =>
    split
    · have hbefore := eq_append_of_dropWhile_reverse hdrop
      have hcomments : Node.atRulesIn (f.before.reverse.takeWhile Node.isComment).reverse = 0 :=
        atRulesIn_comments fun n hn => mem_takeWhile_imp (mem_reverse.mp hn)
      generalize (f.before.reverse.takeWhile Node.isComment).reverse = comments at hbefore hcomments
      have hinside : f.inside = Node.atRulesIn left.reverse + Node.atRulesIn children := by
        simp only [inside, hafter, hbefore, Node.atRulesIn_append, Node.atRulesIn, Node.atRules, hcomments, reduceCtorEq,
          if_false]
        omega
      rw [atRules, atRules, atRules, hinside]
      simp only [own, inside, hcomments, Node.atRulesIn, reduceCtorEq, and_false, if_false]
      omega
    · exact hfresh
  · exact hfresh

theorem after_enter (f : Frame) (name : String) : (f.enter name).1.after = [] := by
  unfold enter
  split
  · split <;> rfl
  · rfl

theorem readEntry_eq (o : Options) (f : Frame) (e : Declaration) :
    ∃ declarations, f.readEntry o e = { f with declarations } := by
  unfold readEntry declare?
  split <;> exact ⟨_, rfl⟩

theorem readEntries_eq (o : Options) (f : Frame) (ds : Declarations) :
    ∃ declarations, f.readEntries o ds = { f with declarations } := by
  unfold readEntries
  induction ds.entries generalizing f with
  | nil => exact ⟨f.declarations, rfl⟩
  | cons e entries ih =>
    obtain ⟨declarations, hentry⟩ := readEntry_eq o f e
    rw [foldl_cons, hentry]
    exact ih _

/-- The block of an at-rule is an at-rule, and that of a selector is none. -/
theorem atRules_openBlock {f : Frame} (hafter : f.after = []) (name : String) (kind : BlockKind) (fs : List Frame) :
    atRules ((f.openBlock name kind).1 :: (f.openBlock name kind).2 :: fs)
      = atRules (f :: fs) + if kind = .atBlock then 1 else 0 := by
  cases kind with
  | selector fragments => exact atRules_enter hafter name fs
  | atBlock =>
    have hown : own { name, kind := .atBlock } (f :: fs) = 1 := by simp [own]
    have hinside : inside { name, kind := .atBlock } = 0 := rfl
    show atRules ({ name, kind := .atBlock } :: f :: fs) = atRules (f :: fs) + 1
    rw [atRules, hown, hinside]
    omega

theorem after_openBlock (f : Frame) (name : String) (kind : BlockKind) : (f.openBlock name kind).1.after = [] := by
  cases kind with
  | selector fragments => exact after_enter f name
  | atBlock => rfl

theorem atRules_readEntry (o : Options) (f : Frame) (e : Declaration) (fs : List Frame) :
    atRules (f.readEntry o e :: fs) = atRules (f :: fs) := by
  obtain ⟨declarations, heq⟩ := readEntry_eq o f e
  rw [heq]
  rfl

theorem atRules_readEntries (o : Options) (f : Frame) (ds : Declarations) (fs : List Frame) :
    atRules (f.readEntries o ds :: fs) = atRules (f :: fs) := by
  obtain ⟨declarations, heq⟩ := readEntries_eq o f ds
  rw [heq]
  rfl

theorem after_readEntries (o : Options) (f : Frame) (ds : Declarations) : (f.readEntries o ds).after = f.after := by
  obtain ⟨declarations, heq⟩ := readEntries_eq o f ds
  rw [heq]

end Frame

mutual

/-- **A node that is read** brings its at-rules along. -/
theorem Node.atRules_readInto (o : Options) (n : Node) {f : Frame} (hafter : f.after = []) (fs : List Frame) :
    Frame.atRules (n.readInto o f :: fs) = Frame.atRules (f :: fs) + n.atRules ∧ (n.readInto o f).after = [] := by
  cases n with
  | lineAt rule =>
    rw [readInto, Frame.atRules_push]
    exact ⟨rfl, hafter⟩
  | comment text =>
    rw [readInto]
    exact ⟨rfl, hafter⟩
  | block name kind ds children =>
    rw [readInto]
    refine ⟨?_, rfl⟩
    have hinner : ((f.openBlock name kind).1.readEntries o ds).after = [] := by
      rw [Frame.after_readEntries, Frame.after_openBlock]
    have hchildren := atRules_readAllInto o children hinner ((f.openBlock name kind).2 :: fs)
    rw [Frame.atRules_close, hchildren.1, Frame.atRules_readEntries, Frame.atRules_openBlock hafter, Node.atRules]
    omega

theorem Node.atRules_readAllInto (o : Options) (ns : List Node) {f : Frame} (hafter : f.after = []) (fs : List Frame) :
    Frame.atRules (readAllInto o ns f :: fs) = Frame.atRules (f :: fs) + atRulesIn ns ∧
      (readAllInto o ns f).after = [] := by
  cases ns with
  | nil =>
    rw [readAllInto]
    exact ⟨rfl, hafter⟩
  | cons n ns =>
    obtain ⟨hfirst, hafter'⟩ := Node.atRules_readInto o n hafter fs
    obtain ⟨hrest, hlast⟩ := atRules_readAllInto o ns hafter' fs
    rw [readAllInto, hrest, hfirst, atRulesIn]
    exact ⟨by omega, hlast⟩

end

/-! ## A text that loses an at-rule -/

namespace Reader

variable {o : Options} {l : Layout} {tail : List Char} {u v : View} {a b : String}

/-- The at-rules in the tree so far, together with those that are being read. -/
def View.load (v : View) : Nat := Frame.atRules v.frames + (v.mode :: v.returns).count .atRule

/-- On the way through the text some at-sign starts no at-rule. -/
def Loses (o : Options) (tail : List Char) (v : View) (text : String) : Prop :=
  ∀ s before, Shows s v → Text.oddBackslashes before = false →
    ∃ r n, run o ⟨⟨before, text.toList ++ tail⟩, s⟩ = run o r ∧ Within r n ∧
      n < v.load + (text.toList ++ tail).count '@'

theorem Shows.within {s : State} (hs : Shows s v) (before rest : List Char) :
    Within ⟨⟨before, rest⟩, s⟩ (v.load + rest.count '@') := by
  refine ⟨v.load, ⟨v.frames, hs.builds, ?_⟩, le_rfl⟩
  rw [State.pending, hs.mode, hs.returns, View.load]

/-- An at-sign is lost behind what is read without a loss. -/
theorem Loses.of_reads (ha : Reads o (b.toList ++ tail) v a u) (hload : u.load ≤ v.load + occurrences '@' a)
    (hb : Loses o tail u b) : Loses o tail v (a ++ b) := by
  intro s before hs hbefore
  obtain ⟨t, before', ht, hbefore', hrun⟩ := ha.2 s before hs hbefore
  obtain ⟨r, n, hrun', hr, hlt⟩ := hb t before' ht hbefore'
  have hcount : a.toList.count '@' = occurrences '@' a := rfl
  rw [toList_append, append_assoc, count_append]
  exact ⟨r, n, hrun.trans hrun', hr, by omega⟩

/-- What comes behind a loss does not make up for it. -/
theorem Loses.append (ha : Loses o (b.toList ++ tail) v a) : Loses o tail v (a ++ b) := by
  unfold Loses
  rw [toList_append, append_assoc]
  exact ha

/-- **An at-sign in a value** is lost. -/
theorem loses_of_value (hmode : v.mode = .value) {more : List Char} (htext : a.toList = '@' :: more) :
    Loses o tail v a := by
  intro s before hs _
  have hwithin := hs.within before (a.toList ++ tail)
  rw [htext, cons_append, count_cons_self, ← Nat.add_assoc] at hwithin ⊢
  refine ⟨next o ⟨⟨before, '@' :: (more ++ tail)⟩, s⟩, v.load + (more ++ tail).count '@', (run_next o _).symm, ?_, ?_⟩
  · exact next_within_of_value (hs.mode.trans hmode) rfl hwithin
  · omega

variable {returns : List Mode} {f g : Frame} {fs : List Frame} {body inner : Keyword.AtBody} {depth : Nat}

/-- Declarations without space are read up to the end of the last one, which is not there. -/
theorem reads_entries (l : Layout) (returns : List Mode) (f g : Frame) (fs : List Frame)
    {entries : List Declaration} (h : ∀ e ∈ entries, IsPlainEntry e) (hne : entries ≠ []) (hstop : Stops tail) :
    ∃ v : View, v.mode = .value ∧ v.load = View.load (.bare .property returns (f :: g :: fs)) ∧
      Reads o tail (.bare .property returns (f :: g :: fs))
        (intercalate ";" (entries.map l.entry)) v := by
  induction entries generalizing f with
  | nil => exact absurd rfl hne
  | cons e entries ih =>
    have he := h e mem_cons_self
    cases entries with
    | nil =>
      obtain ⟨parts, -, hread⟩ := reads_entry o l returns (f :: g :: fs) he hstop
      rw [map_singleton, String.intercalate_singleton]
      refine ⟨_, rfl, ?_, hread⟩
      simp [View.load]
    | cons e' entries =>
      obtain ⟨v, hmode, hload, hread⟩ :=
        ih (f.readEntry o e) (fun x hx => h x (mem_cons_of_mem _ hx)) (by simp)
      rw [map_cons, map_cons, String.intercalate_cons_cons, ← map_cons]
      refine ⟨v, hmode, hload.trans ?_, (reads_entry_semicolon he ?_).append hread⟩
      · rw [View.load, View.load, Frame.atRules_readEntry]
      · exact append_ne_nil_of_right_ne_nil _ hstop.ne_nil

/-- Behind the last declaration of a block an at-sign is lost. -/
theorem loses_declarations (hl : l.spacious = false)
    (h : ∀ e ∈ ds.entries, IsPlainEntry e) (hne : ds.entries ≠ []) {more : List Char} (hb : b.toList = '@' :: more) :
    Loses o tail (.bare .property returns (f :: g :: fs)) (l.declarations depth ds ++ b) := by
  have hstop : Stops (b.toList ++ tail) := Stops.of_head hb (by decide)
  obtain ⟨v, hmode, hload, hread⟩ := reads_entries l returns f g fs h hne hstop
  rw [Layout.declarations_compact hl]
  refine Loses.of_reads hread ?_ (loses_of_value hmode hb)
  omega

/-- On the way through what is written for the node some at-sign is lost. -/
def Lossy (o : Options) (l : Layout) (depth : Nat) (body : Keyword.AtBody) (n : Node) : Prop :=
  ∃ text, l.node depth n = some text ∧
    ∀ (tail : List Char) (returns : List Mode) (f : Frame) (fs : List Frame), tail ≠ [] → f.after = [] →
      Loses o tail (.bare (bodyMode body) returns (f :: fs)) text

/-- An at-sign is lost among nodes if one is lost in one of them, and the nodes in front of that can be read. -/
theorem loses_nodes (h : ∀ n ∈ ns, Legible o l depth body n ∨ Lossy o l depth body n)
    (hsigned : ∀ n ∈ ns, Signed l depth n) (hlossy : ∃ n ∈ ns, Lossy o l depth body n) (htail : tail ≠ [])
    (hafter : f.after = []) :
    Loses o tail (.bare (bodyMode body) returns (f :: fs))
      (intercalate l.newline (l.nodes depth ns)) := by
  induction ns generalizing f with
  | nil =>
    obtain ⟨n, hn, -⟩ := hlossy
    exact absurd hn not_mem_nil
  | cons n ns ih =>
    obtain ⟨m, hm, hlossy⟩ := hlossy
    have hfirst : Legible o l depth body n ∧ m ∈ ns ∨ Lossy o l depth body n := by
      rcases mem_cons.mp hm with rfl | hm
      · exact .inr hlossy
      · exact (h n mem_cons_self).imp_left (⟨·, hm⟩)
    rcases hfirst with ⟨⟨text, htext, hread⟩, hm⟩ | ⟨text, htext, hloses⟩
    · obtain ⟨gap, hgap, heq⟩ := intercalate_nodes_cons htext ns
      obtain ⟨text', htext', hsigns⟩ := hsigned n mem_cons_self
      obtain rfl := Option.some.inj (htext.symm.trans htext')
      obtain ⟨hload, hafter'⟩ := n.atRules_readInto o hafter fs
      -- the node has as many at-signs as at-rules, so nothing is lost in front of the next one
      have hrest := ih (fun x hx => h x (mem_cons_of_mem _ hx)) (fun x hx => hsigned x (mem_cons_of_mem _ hx))
        ⟨m, hm, hlossy⟩ hafter'
      rw [heq]
      refine Loses.of_reads ((hread _ _ _ _ ?_).append (reads_blank body hgap)) ?_ hrest
      · exact append_ne_nil_of_right_ne_nil _ (append_ne_nil_of_right_ne_nil _ htail)
      · have hblank := occurrences_of_isBlank (.inl rfl) hgap
        have htext := hsigns '@' (.inl rfl)
        rw [if_pos rfl] at htext
        rw [View.load, View.load, occurrences_append, hload]
        simp only
        omega
    · obtain ⟨gap, -, heq⟩ := intercalate_nodes_cons htext ns
      rw [heq]
      refine (hloses _ _ _ _ ?_ hafter).append.append
      exact append_ne_nil_of_right_ne_nil _ (append_ne_nil_of_right_ne_nil _ htail)

/-! ## Trees that lose an at-rule -/

theorem count_bodyMode (body : Keyword.AtBody) (returns : List Mode) :
    (bodyMode body :: returns).count .atRule = returns.count .atRule :=
  count_cons_of_ne (by cases body <;> decide)

/-- What stands among declarations starts with an at-sign. -/
theorem text_of_fits_declarations (hl : l.spacious = false) (h : n.Fits .declarations)
    (htext : l.node depth n = some text) : ∃ more, text.toList = '@' :: more := by
  have hindent : l.indent depth = "" := by simp [Layout.indent, hl]
  have hblock {name : String} {ds : Declarations} {children : List Node}
      (heq : l.node depth (.block ("@" ++ name) .atBlock ds children) = some text) : ∃ more, text.toList = '@' :: more := by
    rw [Layout.node, Layout.block] at heq
    split at heq
    · cases heq
    · obtain rfl := Option.some.inj heq
      simp only [toList_append, hindent]
      exact ⟨_, rfl⟩
  cases h with
  | declarations => exact hblock htext
  | rules => exact hblock htext
  | @lineAt _ rule _ =>
    rw [Layout.node] at htext
    obtain rfl := Option.some.inj htext
    unfold LineAt.render
    split <;> simp only [toList_append, hindent] <;> exact ⟨_, rfl⟩

/-- The name of a block is read without a loss. -/
theorem loses_block {name : String} {kind : BlockKind}
    (hopen : ∀ (tail : List Char) (returns : List Mode) (f : Frame) (fs : List Frame),
      Reads o tail (.bare (bodyMode body) returns (f :: fs)) (name ++ l.space ++ "\x7b")
        (.bare (bodyMode inner) (bodyMode body :: returns) ((f.openBlock name kind).1 :: (f.openBlock name kind).2 :: fs)))
    (hname : occurrences '@' name = if kind = .atBlock then 1 else 0)
    (hwritten : ds.entries ≠ [] ∨ l.nodes (depth + 1) children ≠ [] ∧ Block.isSelector ⟨name, kind, ds, []⟩ = false)
    (hbody : ∀ (gap : String) (tail : List Char) (returns : List Mode) (f g : Frame) (fs : List Frame),
      gap = l.newline ∨ gap = "" → tail ≠ [] → f.after = [] →
      Loses o tail (.bare (bodyMode inner) returns (f :: g :: fs))
        (l.newline ++ l.declarations (depth + 1) ds ++ gap ++ intercalate l.newline (l.nodes (depth + 1) children))) :
    Lossy o l depth body (.block name kind ds children) := by
  obtain ⟨gap, hgap, heq⟩ := block_eq l depth ⟨name, kind, ds, []⟩ hwritten
  refine ⟨_, heq, fun tail returns f fs htail hafter => ?_⟩
  refine Loses.of_reads ((reads_blank body (isBlank_indent l depth)).append (hopen _ _ _ _)) ?_
    (hbody gap _ _ _ _ _ hgap ?_ (Frame.after_openBlock f name kind)).append.append.append
  · simp only [View.load, Frame.atRules_openBlock hafter, count_bodyMode, occurrences_append, hname]
    omega
  · simp

/-- An at-sign is lost in a block with both declarations and other nodes. -/
theorem loses_mixed (hl : l.spacious = false)
    (hne : ds.entries ≠ []) (hentries : ∀ e ∈ ds.entries, IsPlainEntry e) (hchildren : ∀ n ∈ children, n.Fits .declarations)
    (hsome : children ≠ []) {gap : String} (hgap : gap = l.newline ∨ gap = "") :
    Loses o tail (.bare (bodyMode .declarations) returns (f :: g :: fs))
      (l.newline ++ l.declarations (depth + 1) ds ++ gap ++ intercalate l.newline (l.nodes (depth + 1) children)) := by
  have hnewline : l.newline = "" := by simp [Layout.newline, hl]
  have hempty : gap = "" := hgap.elim (·.trans hnewline) id
  obtain ⟨n, ns, rfl⟩ := exists_cons_of_ne_nil hsome
  have hn := hchildren n mem_cons_self
  obtain ⟨text, htext, -⟩ := signed_of_fits hl hn (depth + 1)
  obtain ⟨more, hmore⟩ := text_of_fits_declarations hl hn htext
  obtain ⟨between, -, heq⟩ := intercalate_nodes_cons htext ns
  have hstart : (text ++ between ++ intercalate "" (l.nodes (depth + 1) ns)).toList
      = '@' :: (more ++ between.toList ++ (intercalate "" (l.nodes (depth + 1) ns)).toList) := by
    rw [toList_append, toList_append, hmore, cons_append, cons_append]
  rw [heq, hempty, hnewline, String.empty_append, String.append_empty]
  exact loses_declarations hl hentries hne hstart

/-- **A mixed tree loses an at-rule** in the layout without space. -/
theorem lossy_of_fits (ho : o.Plain) (hl : l.spacious = false) (h : n.Fits body) (hmixed : ¬ n.Unmixed)
    (depth : Nat) : Lossy o l depth body n := by
  have hat {words : List String} (hwords : ∀ w ∈ words, IsWord w) : occurrences '@' ("@" ++ joinWith " " words) = 1 :=
    occurrences_keyword hwords (.inl rfl)
  have hsome {name : String} {kind : BlockKind} {ds : Declarations} {children : List Node}
      (hmixed : ¬ Node.Unmixed (.block name kind ds children)) : children ≠ [] := by
    rintro rfl
    exact hmixed (.block (.inr rfl) (by simp))
  induction h generalizing depth with
  | selector hname hne hentries hchildren _ =>
    exact loses_block (fun _ _ _ _ => reads_name ho hname) (occurrences_of_chars (.inl rfl) hname.chars) (.inl hne)
      fun _ _ _ _ _ _ hgap _ _ => loses_mixed hl hne hentries hchildren (hsome hmixed) hgap
  | @declarations body words ds children hwords hkeyword hne hentries hchildren _ =>
    exact loses_block (fun _ _ _ _ => reads_keyword body hwords hkeyword) (hat hwords) (.inl hne)
      fun _ _ _ _ _ _ hgap _ _ => loses_mixed hl hne hentries hchildren (hsome hmixed) hgap
  | @rules body words children hwords hkeyword hne hchildren ih =>
    have hsigned : ∀ n ∈ children, Signed l (depth + 1) n := fun n hn => signed_of_fits hl (hchildren n hn) _
    have hwritten : l.nodes (depth + 1) children ≠ [] :=
      nodes_ne_nil (fun n hn => (hsigned n hn).imp fun _ => And.left) hne
    have hlossy : ∃ n ∈ children, Lossy o l (depth + 1) .rules n := by
      by_contra hnone
      refine hmixed (.block (.inl rfl) fun n hn => ?_)
      by_contra hn'
      exact hnone ⟨n, hn, ih n hn hn' _⟩
    have hreads : ∀ n ∈ children, Legible o l (depth + 1) .rules n ∨ Lossy o l (depth + 1) .rules n := by
      intro n hn
      by_cases hn' : n.Unmixed
      · exact .inl (legible_of_fits ho (hchildren n hn) (.inr hn') _)
      · exact .inr (ih n hn hn' _)
    refine loses_block (fun _ _ _ _ => reads_keyword body hwords hkeyword) (hat hwords) (.inr ⟨hwritten, rfl⟩) ?_
    intro gap tail returns f g fs hgap htail hafter
    have hnewline : l.newline = "" := by simp [Layout.newline, hl]
    have hempty : l.newline ++ l.declarations (depth + 1) .empty ++ gap = "" := by
      rw [hnewline, hgap.elim (·.trans hnewline) id, Layout.declarations_compact hl]
      rfl
    rw [hempty, String.empty_append]
    exact loses_nodes hreads hsigned hlossy htail hafter
  | lineAt => exact absurd (.lineAt _) hmixed

/-- **The layout without space loses an at-rule** of a tree that is mixed somewhere. -/
theorem atRulesIn_read_lt (ho : o.Plain) (hl : l.spacious = false) (h : ∀ n ∈ ns, n.Fits .rules)
    (hmixed : ∃ n ∈ ns, ¬ n.Unmixed) :
    Node.atRulesIn (Document.read o (intercalate l.newline (l.nodes 0 ns))).1.tree < Node.atRulesIn ns := by
  have hsigned : ∀ n ∈ ns, Signed l 0 n := fun n hn => signed_of_fits hl (h n hn) 0
  have hlossy : ∃ n ∈ ns, Lossy o l 0 .rules n := by
    obtain ⟨n, hn, hn'⟩ := hmixed
    exact ⟨n, hn, lossy_of_fits ho hl (h n hn) hn' 0⟩
  have hreads : ∀ n ∈ ns, Legible o l 0 .rules n ∨ Lossy o l 0 .rules n := by
    intro n hn
    by_cases hn' : n.Unmixed
    · exact .inl (legible_of_fits ho (h n hn) (.inr hn') 0)
    · exact .inr (lossy_of_fits ho hl (h n hn) hn' 0)
  have hsigns := occurrences_nodes hsigned (.inl rfl)
  have hreturns := occurrences_nodes hsigned (.inr rfl)
  have hloses : Loses o [' '] (.bare (bodyMode .rules) [] [.root])
      (intercalate l.newline (l.nodes 0 ns)) := loses_nodes hreads hsigned hlossy (by simp) rfl
  generalize intercalate l.newline (l.nodes 0 ns) = css at hsigns hloses hreturns ⊢
  have htext : sourceText css = css.toList ++ [' '] := sourceText_eq (count_eq_zero.mp hreturns)
  obtain ⟨r, n, hrun, hr, hlt⟩ := hloses {} [] shows_start rfl
  have hread : (Document.read o css).1.tree = ((run o r).state.finish o).document.tree := by
    rw [← hrun, ← htext]
    rfl
  -- no more at-rules come of the rest than it has at-signs, and one of them was lost before it
  have hle := atRulesIn_run_le (o := o) hr
  have hload : View.load (.bare (bodyMode .rules) [] [.root]) = 0 := rfl
  have hcount : (css.toList ++ [' ']).count '@' = occurrences '@' css := by
    rw [count_append]
    rfl
  rw [hread]
  rw [if_pos rfl] at hsigns
  omega

/-- The layout with space keeps every at-rule. -/
theorem atRulesIn_read_eq (ho : o.Plain) (hl : l.spacious = true) (h : ∀ n ∈ ns, n.Fits .rules) :
    Node.atRulesIn (Document.read o (intercalate l.newline (l.nodes 0 ns))).1.tree = Node.atRulesIn ns := by
  obtain ⟨htree, -⟩ := read_nodes ho h fun _ _ => .inl hl
  obtain ⟨hcount, hafter⟩ := Node.atRules_readAllInto o ns (f := .root) rfl []
  rw [htree]
  rw [Frame.atRules, Frame.inside, hafter] at hcount
  simpa [Frame.own, Frame.atRules, Frame.inside, Frame.root, Node.atRulesIn] using hcount

end Reader

/-! ## The two layouts side by side -/

/-- **Both layouts of a document say the same** if and only if no block of it holds declarations together with other
nodes. -/
theorem read_highest_eq_read_standard_iff {o : Options} (ho : o.Plain) {d : Document} (hd : d.Headless)
    (h : ∀ n ∈ d.tree, n.Fits .rules) :
    (Document.read o (d.render { o with template := .highest })).1.tree
        = (Document.read o (d.render { o with template := .standard })).1.tree ↔
      ∀ n ∈ d.tree, n.Unmixed := by
  have hhighest := Document.render_eq (o := { o with template := .highest }) ho.preserveCss hd
  have hstandard := Document.render_eq (o := { o with template := .standard }) ho.preserveCss hd
  rw [hhighest, hstandard]
  constructor
  · intro heq
    by_contra hmixed
    have hlost : ∃ n ∈ d.tree, ¬ n.Unmixed := by simpa using hmixed
    have hlt := Reader.atRulesIn_read_lt (l := Layout.ofOptions { o with template := .highest }) ho rfl h hlost
    have hkept := Reader.atRulesIn_read_eq (l := Layout.ofOptions { o with template := .standard }) ho rfl h
    rw [heq, hkept] at hlt
    exact lt_irrefl _ hlt
  · intro hunmixed
    rw [(Reader.read_nodes ho h fun n hn => .inr (hunmixed n hn)).1, (Reader.read_nodes ho h fun _ _ => .inl rfl).1]

def redText : Declarations := .ofList [("color", ⟨"red", false⟩)]

def noMargin : Declarations := .ofList [("margin", ⟨"0", true⟩)]

/-- A selector and a page, next to each other in an at-rule. -/
def pageBesideSelector : Document where
  blocks := #[
    some { name := "", kind := .atBlock, children := [.block ⟨1⟩] },
    some { name := "@media print", kind := .atBlock, children := [.block ⟨2⟩, .block ⟨3⟩] },
    some { name := "a", kind := .selector ["a"], declarations := redText },
    some { name := "@page", kind := .atBlock, declarations := noMargin }]

theorem read_highest_eq_read_standard_pageBesideSelector :
    (Document.read {} (pageBesideSelector.render { template := .highest })).1.tree
      = (Document.read {} (pageBesideSelector.render { template := .standard })).1.tree := by
  have htree : pageBesideSelector.tree = [.block "@media print" .atBlock .empty
      [.block "a" (.selector ["a"]) redText [], .block "@page" .atBlock noMargin []]] := rfl
  have hred : redText.entries = [("color", ⟨"red", false⟩)] := by decide
  have hmargin : noMargin.entries = [("margin", ⟨"0", true⟩)] := by decide
  have hselector : Node.Fits .rules (.block "a" (.selector ["a"]) redText []) := by
    refine .selector ⟨fun p hp => ?_, rfl⟩ (by rw [hred]; decide) (fun e he => ?_) (by simp)
    · rw [List.mem_singleton.mp hp]
      exact ⟨["a"], by decide, by decide, rfl⟩
    · rw [hred] at he
      rw [List.mem_singleton.mp he]
      exact ⟨by decide, ["red"], by decide, by decide, by decide⟩
  have hpage : Node.Fits .rules (.block "@page" .atBlock noMargin []) := by
    refine @Node.Fits.declarations _ ["page"] _ _ (by decide) (by decide) (by rw [hmargin]; decide) (fun e he => ?_)
      (by simp)
    rw [hmargin] at he
    rw [List.mem_singleton.mp he]
    exact ⟨by decide, ["0"], by decide, by decide, by decide⟩
  refine (read_highest_eq_read_standard_iff ⟨rfl, rfl, rfl, by decide⟩ ⟨rfl, rfl, rfl⟩ ?_).mpr ?_
  · rw [htree]
    intro n hn
    rw [List.mem_singleton.mp hn]
    refine @Node.Fits.rules _ ["media", "print"] _ (by decide) (by decide) (by simp) fun m hm => ?_
    rcases List.mem_pair.mp hm with rfl | rfl
    · exact hselector
    · exact hpage
  · rw [htree]
    intro n hn
    rw [List.mem_singleton.mp hn]
    refine .block (.inl rfl) fun m hm => ?_
    rcases List.mem_pair.mp hm with rfl | rfl <;> exact .block (.inr rfl) (by simp)

/-- A page in a selector, behind its declaration. -/
def pageInSelector : Document where
  blocks := #[
    some { name := "", kind := .atBlock, children := [.block ⟨1⟩] },
    some { name := "a", kind := .selector ["a"], declarations := redText, children := [.block ⟨2⟩] },
    some { name := "@page", kind := .atBlock, declarations := noMargin }]

/-- **The page is lost** in the layout without space: the brace that should end it ends the selector. -/
theorem read_highest_ne_read_standard :
    (Document.read {} (pageInSelector.render { template := .highest })).1.tree
      ≠ (Document.read {} (pageInSelector.render { template := .standard })).1.tree := by
  have hhighest : pageInSelector.render { template := .highest } = "a\x7bcolor:red@page\x7bmargin:0!important\x7d\x7d" := by
    decide +kernel
  have hstandard : pageInSelector.render { template := .standard }
      = "a \x7b\n  color: red;\n\n  @page \x7b\n    margin: 0 !important;\n  \x7d\n\x7d\n" := by
    decide +kernel
  have hlost : Node.atRulesIn (Document.read {} (pageInSelector.render { template := .highest })).1.tree = 0 := by
    rw [hhighest]
    exact Reader.read_view (Node.atRulesIn ·.tree) _ _ 40 (by decide +kernel) (by decide +kernel)
  have hkept : Node.atRulesIn (Document.read {} (pageInSelector.render { template := .standard })).1.tree = 1 := by
    rw [hstandard]
    exact Reader.read_view (Node.atRulesIn ·.tree) _ _ 60 (by decide +kernel) (by decide +kernel)
  intro heq
  rw [heq, hkept] at hlost
  exact absurd hlost (by decide)

end Stylesheet
