import Stylesheet.Proofs.RoundTrip.Written

/-!
# Reading trees as they are written

A tree of words (`Node.Fits`) is read node by node: what is written for a node takes the frames to what the node makes
of them (`Node.readInto`), in either layout. The layout without space leaves out the semicolon behind the last
declaration of a block, so there this holds only where nothing but declarations stands in such a block
(`Node.Unmixed`).

The root holds in the end what the nodes make of an empty block (`read_nodes`).
-/

namespace Stylesheet

open Text List Node
open Reader (IsPlainEntry)

/-! ## Trees of words -/

/-- A node made of words that may stand among rules, or among declarations. A selector stands among rules only. An
at-rule has a keyword that tells what stands in it. -/
inductive Node.Fits : Keyword.AtBody → Node → Prop where
  | selector {name : String} {fragments : List String} {ds : Declarations} {children : List Node}
      (hname : IsName fragments name) (hne : ds.entries ≠ []) (hentries : ∀ e ∈ ds.entries, IsPlainEntry e)
      (hchildren : ∀ n ∈ children, Fits .declarations n) : Fits .rules (.block name (.selector fragments) ds children)
  | declarations {body : Keyword.AtBody} {words : List String} {ds : Declarations} {children : List Node}
      (hwords : ∀ w ∈ words, IsWord w) (hkeyword : words.head?.bind Keyword.atBody? = some .declarations)
      (hne : ds.entries ≠ []) (hentries : ∀ e ∈ ds.entries, IsPlainEntry e)
      (hchildren : ∀ n ∈ children, Fits .declarations n) :
      Fits body (.block ("@" ++ joinWith " " words) .atBlock ds children)
  | rules {body : Keyword.AtBody} {words : List String} {children : List Node} (hwords : ∀ w ∈ words, IsWord w)
      (hkeyword : words.head?.bind Keyword.atBody? = some .rules) (hne : children ≠ [])
      (hchildren : ∀ n ∈ children, Fits .rules n) :
      Fits body (.block ("@" ++ joinWith " " words) .atBlock .empty children)
  | lineAt {body : Keyword.AtBody} {rule : LineAt} (h : rule.IsPlain) : Fits body (.lineAt rule)

/-- No block holds both declarations and other nodes. -/
inductive Node.Unmixed : Node → Prop where
  | block {name : String} {kind : BlockKind} {ds : Declarations} {children : List Node}
      (h : ds.entries = [] ∨ children = []) (hchildren : ∀ n ∈ children, Unmixed n) :
      Unmixed (.block name kind ds children)
  | lineAt (rule : LineAt) : Unmixed (.lineAt rule)
  | comment (text : String) : Unmixed (.comment text)

/-! ## What a node makes of a block -/

/-- The frames behind the opening brace of a block: that of the block, and that of the block around it. -/
def Frame.openBlock (f : Frame) (name : String) : BlockKind → Frame × Frame
  | .selector _ => f.enter name
  | .atBlock => ({ name, kind := .atBlock }, f)

/-- Reads written declarations into a block. -/
def Frame.readEntries (o : Options) (f : Frame) (ds : Declarations) : Frame := ds.entries.foldl (readEntry o) f

mutual

/-- What reading a written node makes of the block around it. -/
def Node.readInto (o : Options) : Node → Frame → Frame
  | .block name kind ds children, f =>
    (readAllInto o children ((f.openBlock name kind).1.readEntries o ds)).close (f.openBlock name kind).2
  | .lineAt rule, f => f.push (.lineAt rule)
  | .comment _, f => f

/-- What reading written nodes makes of the block around them. -/
def Node.readAllInto (o : Options) : List Node → Frame → Frame
  | [], f => f
  | n :: ns, f => readAllInto o ns (readInto o n f)

end

namespace Reader

open State

variable {text : String} {ns children : List Node} {ds : Declarations}
variable {o : Options} {l : Layout} {tail : List Char} {returns : List Mode} {f g : Frame} {fs : List Frame}
  {body inner : Keyword.AtBody} {depth : Nat}

/-- What is written for the node is read as the node. -/
def Legible (o : Options) (l : Layout) (depth : Nat) (body : Keyword.AtBody) (n : Node) : Prop :=
  ∃ text, l.node depth n = some text ∧
    ∀ (tail : List Char) (returns : List Mode) (f : Frame) (fs : List Frame), tail ≠ [] →
      Reads o tail (.bare (bodyMode body) returns (f :: fs)) text
        (.bare (bodyMode body) returns (n.readInto o f :: fs))

/-- The text of nodes is the text of the first one and that of the others, with nothing but space between them. -/
theorem intercalate_nodes_cons {n : Node} (htext : l.node depth n = some text) (ns : List Node) :
    ∃ gap, IsBlank gap ∧ String.intercalate l.newline (l.nodes depth (n :: ns))
      = text ++ gap ++ String.intercalate l.newline (l.nodes depth ns) := by
  rw [Layout.nodes, htext, Option.toList_some, singleton_append]
  cases l.nodes depth ns with
  | nil =>
    refine ⟨"", fun c hc => absurd hc (by simp), ?_⟩
    rw [String.intercalate_singleton, String.intercalate_nil, String.append_empty, String.append_empty]
  | cons next others => exact ⟨l.newline, isBlank_newline l, String.intercalate_cons_cons⟩

/-- **Nodes** that can be read one by one can be read one after the other. -/
theorem reads_nodes (h : ∀ n ∈ ns, Legible o l depth body n) (htail : tail ≠ []) :
    Reads o tail (.bare (bodyMode body) returns (f :: fs)) (String.intercalate l.newline (l.nodes depth ns))
      (.bare (bodyMode body) returns (readAllInto o ns f :: fs)) := by
  induction ns generalizing f with
  | nil =>
    rw [Layout.nodes, String.intercalate_nil, readAllInto]
    exact Reads.nil
  | cons n ns ih =>
    obtain ⟨text, htext, hread⟩ := h n mem_cons_self
    obtain ⟨gap, hgap, heq⟩ := intercalate_nodes_cons htext ns
    rw [heq, readAllInto]
    refine ((hread _ _ _ _ ?_).append (reads_blank body hgap)).append (ih fun x hx => h x (mem_cons_of_mem _ hx))
    exact append_ne_nil_of_right_ne_nil _ (append_ne_nil_of_right_ne_nil _ htail)

/-! ## Blocks -/

theorem reads_close (inner body : Keyword.AtBody) :
    Reads o tail (.bare (bodyMode inner) (bodyMode body :: returns) (f :: g :: fs)) "\x7d"
      (.bare (bodyMode body) returns (f.close g :: fs)) := by
  cases inner with
  | declarations => exact reads_property_close (bodyMode_cases body)
  | rules => exact reads_selector_close (bodyMode_cases body)

/-- Declarations are read where each has its semicolon, or where there are none. -/
theorem reads_declarations (hentries : ∀ e ∈ ds.entries, IsPlainEntry e)
    (hinner : ds.entries = [] ∨ inner = .declarations) (hl : l.spacious = true ∨ ds.entries = []) (htail : tail ≠ []) :
    Reads o tail (.bare (bodyMode inner) returns (f :: g :: fs)) (l.declarations depth ds)
      (.bare (bodyMode inner) returns (f.readEntries o ds :: g :: fs)) := by
  by_cases hnil : ds.entries = []
  · have hempty : l.declarations depth ds = "" := by
      simp [Layout.declarations, hnil, String.intercalate_nil]
    rw [hempty, Frame.readEntries, hnil]
    exact Reads.nil
  · obtain rfl := hinner.resolve_left hnil
    rw [Layout.declarations_spacious (hl.resolve_right hnil)]
    exact reads_lines depth hentries htail

/-- **The body of a block** with what closes it. -/
theorem reads_body {gap : String}
    (hentries : ∀ e ∈ ds.entries, IsPlainEntry e) (hinner : ds.entries = [] ∨ inner = .declarations)
    (hchildren : ∀ n ∈ children, Legible o l (depth + 1) inner n)
    (hl : l.spacious = true ∨ ds.entries = [] ∨ children = []) (hgap : gap = l.newline ∨ gap = "") (htail : tail ≠ []) :
    Reads o tail (.bare (bodyMode inner) (bodyMode body :: returns) (f :: g :: fs))
      (l.newline ++ l.declarations (depth + 1) ds ++ gap ++ String.intercalate l.newline (l.nodes (depth + 1) children)
        ++ l.indent depth ++ "\x7d" ++ l.newline)
      (.bare (bodyMode body) returns ((readAllInto o children (f.readEntries o ds)).close g :: fs)) := by
  have hblank {body : Keyword.AtBody} {text : String} (h : IsBlank text) {tail : List Char} {returns : List Mode}
      {frames : List Frame} : Reads o tail (.bare (bodyMode body) returns frames) text
        (.bare (bodyMode body) returns frames) := reads_blank body h
  have hgap' : IsBlank gap := by
    rcases hgap with rfl | rfl
    · exact isBlank_newline l
    · exact fun c hc => absurd hc (by simp)
  by_cases hl' : l.spacious = true ∨ ds.entries = []
  · have hdeclarations {tail : List Char} (htail : tail ≠ []) :
        Reads o tail (.bare (bodyMode inner) (bodyMode body :: returns) (f :: g :: fs))
          (l.declarations (depth + 1) ds)
          (.bare (bodyMode inner) (bodyMode body :: returns) (f.readEntries o ds :: g :: fs)) :=
      reads_declarations hentries hinner hl' htail
    refine ((((((hblank (isBlank_newline l)).append (hdeclarations ?_)).append (hblank hgap')).append
      (reads_nodes hchildren ?_)).append (hblank (isBlank_indent l depth))).append (reads_close inner body)).append
      (hblank (isBlank_newline l))
    · simp
    · simp
  · -- without space the closing brace ends the last declaration
    rw [not_or, Bool.not_eq_true] at hl'
    obtain ⟨hcompact, hne⟩ := hl'
    obtain rfl := hinner.resolve_left hne
    obtain rfl := (hl.resolve_left (by simp [hcompact])).resolve_left hne
    have hnewline : l.newline = "" := by simp [Layout.newline, hcompact]
    have hindent : l.indent depth = "" := by simp [Layout.indent, hcompact]
    have hempty : gap = "" := hgap.elim (·.trans hnewline) id
    rw [hempty, hnewline, hindent, Layout.nodes, String.intercalate_nil, String.empty_append, String.append_empty,
      String.append_empty, String.append_empty, String.append_empty, Layout.declarations_compact hcompact,
      readAllInto]
    exact reads_entries_close (bodyMode_cases body) hentries hne htail

/-- The text of a block in front of its body, and of the body. -/
theorem block_eq (l : Layout) (depth : Nat) (b : Block) {inner : List String}
    (h : b.declarations.entries ≠ [] ∨ inner ≠ [] ∧ b.isSelector = false) :
    ∃ gap, (gap = l.newline ∨ gap = "") ∧ l.block depth b inner = some (l.indent depth ++ (b.name ++ l.space ++ "\x7b") ++
      (l.newline ++ l.declarations (depth + 1) b.declarations ++ gap ++ String.intercalate l.newline inner
        ++ l.indent depth ++ "\x7d" ++ l.newline)) := by
  have hkept : ¬ (b.declarations.isEmpty && (inner.isEmpty || b.isSelector)) = true := by
    rcases h with h | ⟨hinner, hselector⟩
    · simp [Declarations.isEmpty, h]
    · simp [hinner, hselector]
  refine ⟨if !inner.isEmpty && !b.declarations.isEmpty then l.newline else "", ?_, ?_⟩
  · split
    · exact .inl rfl
    · exact .inr rfl
  · rw [Layout.block, if_neg hkept]
    simp only [String.append_assoc]

theorem nodes_ne_nil (h : ∀ n ∈ ns, ∃ text, l.node depth n = some text) (hne : ns ≠ []) : l.nodes depth ns ≠ [] := by
  obtain ⟨n, ns, rfl⟩ := exists_cons_of_ne_nil hne
  obtain ⟨text, htext⟩ := h n mem_cons_self
  rw [Layout.nodes, htext]
  exact cons_ne_nil _ _

/-- What holds of a layout with space, or of an unmixed block, holds of the nodes in it. -/
theorem spacious_or_unmixed {name : String} {kind : BlockKind}
    (h : l.spacious = true ∨ Node.Unmixed (.block name kind ds children)) :
    (l.spacious = true ∨ ds.entries = [] ∨ children = []) ∧ ∀ n ∈ children, l.spacious = true ∨ n.Unmixed := by
  rcases h with h | h
  · exact ⟨.inl h, fun _ _ => .inl h⟩
  · cases h with
    | block hblock hinside => exact ⟨.inr hblock, fun n hn => .inr (hinside n hn)⟩

/-- A block is read if its name and the nodes in it are. -/
theorem legible_block {name : String} {kind : BlockKind}
    (hopen : ∀ (tail : List Char) (returns : List Mode) (f : Frame) (fs : List Frame),
      Reads o tail (.bare (bodyMode body) returns (f :: fs)) (name ++ l.space ++ "\x7b")
        (.bare (bodyMode inner) (bodyMode body :: returns) ((f.openBlock name kind).1 :: (f.openBlock name kind).2 :: fs)))
    (hwritten : ds.entries ≠ [] ∨ children ≠ [] ∧ kind = .atBlock)
    (hentries : ∀ e ∈ ds.entries, IsPlainEntry e) (hinner : ds.entries = [] ∨ inner = .declarations)
    (hchildren : ∀ n ∈ children, Legible o l (depth + 1) inner n)
    (hl : l.spacious = true ∨ ds.entries = [] ∨ children = []) :
    Legible o l depth body (.block name kind ds children) := by
  have hblock : ds.entries ≠ [] ∨ l.nodes (depth + 1) children ≠ [] ∧ Block.isSelector ⟨name, kind, ds, []⟩ = false := by
    refine hwritten.imp_right fun ⟨hne, hkind⟩ => ⟨nodes_ne_nil (fun n hn => (hchildren n hn).imp fun _ => And.left) hne, ?_⟩
    rw [hkind]
    rfl
  obtain ⟨gap, hgap, heq⟩ := block_eq l depth ⟨name, kind, ds, []⟩ hblock
  refine ⟨_, heq, fun tail returns f fs htail => ?_⟩
  rw [readInto]
  exact ((reads_blank body (isBlank_indent l depth)).append (hopen _ _ _ _)).append
    (reads_body hentries hinner hchildren hl hgap htail)

/-- **A tree of words is read as it is written**, node by node. -/
theorem legible_of_fits (ho : o.Plain) {n : Node} (h : n.Fits body) (hl : l.spacious = true ∨ n.Unmixed) (depth : Nat) :
    Legible o l depth body n := by
  induction h generalizing depth with
  | @selector name fragments ds children hname hne hentries _ ih =>
    obtain ⟨hblock, hinside⟩ := spacious_or_unmixed hl
    exact legible_block (fun _ _ _ _ => reads_name ho hname) (.inl hne) hentries (.inr rfl)
      (fun n hn => ih n hn (hinside n hn) _) hblock
  | @declarations body words ds children hwords hkeyword hne hentries _ ih =>
    obtain ⟨hblock, hinside⟩ := spacious_or_unmixed hl
    exact legible_block (fun _ _ _ _ => reads_keyword body hwords hkeyword) (.inl hne) hentries (.inr rfl)
      (fun n hn => ih n hn (hinside n hn) _) hblock
  | @rules body words children hwords hkeyword hne _ ih =>
    obtain ⟨hblock, hinside⟩ := spacious_or_unmixed hl
    exact legible_block (fun _ _ _ _ => reads_keyword body hwords hkeyword) (.inr ⟨hne, rfl⟩) (by simp [Declarations.empty])
      (.inl rfl) (fun n hn => ih n hn (hinside n hn) _) hblock
  | @lineAt body rule h =>
    refine ⟨_, rfl, fun tail returns f fs htail => ?_⟩
    exact ((reads_blank body (isBlank_indent l depth)).append (reads_lineAt h body)).append
      (reads_blank body (isBlank_newline l))

/-! ## Whole documents -/

theorem unifyLines_eq_self {text : List Char} (h : '\r' ∉ text) : unifyLines text = text := by
  induction text with
  | nil => rfl
  | cons c text ih =>
    have hc : c ≠ '\r' := by
      rintro rfl
      exact h mem_cons_self
    have hrest := ih fun hmem => h (mem_cons_of_mem _ hmem)
    rw [unifyLines, hrest, if_neg (by simp [hc])]
    rintro - rfl
    exact absurd rfl hc

theorem sourceText_eq {css : String} (h : '\r' ∉ css.toList) : sourceText css = css.toList ++ [' '] := by
  rw [sourceText, unifyLines_eq_self h]

/-- A reader starts in the root of an empty document. -/
theorem shows_start : Shows {} (.bare .selector [] [.root]) where
  mode := rfl
  returns := rfl
  builds := Document.empty_builds
  origin := fun hmode => absurd hmode (by decide)
  selector := rfl
  property := rfl
  word := rfl
  done := rfl
  headless := ⟨rfl, rfl, rfl⟩

/-- A text that leaves the root open is read as what stands in the root. -/
theorem tree_of_reads {css : String} (h : Reads o [' '] (.bare .selector [] [.root]) css
      (.bare .selector [] [f])) :
    (Document.read o css).1.tree = f.before ∧ (Document.read o css).1.Headless := by
  have hblank : Reads o [] (.bare .selector [] [f]) " "
      (.bare .selector [] [f]) := reads_selector_blank (.inl rfl)
  obtain ⟨t, before, ht, -, hrun⟩ := (Reads.append h hblank).2 {} [] shows_start rfl
  have htext : (css ++ " ").toList ++ [] = sourceText css := by
    rw [append_nil, String.toList_append, sourceText_eq h.1]
    rfl
  rw [htext, run_of_nil (r := ⟨⟨before, []⟩, t⟩) rfl] at hrun
  have hfinish : t.finish o = t := by
    have hmode : t.mode = .selector := ht.mode
    simp [finish, finishString, finishBracket, finishWords, hmode]
  have hread : (Document.read o css).1 = t.document := by
    rw [Document.read, start, Text.Cursor.start, hrun, hfinish]
  rw [hread]
  exact ⟨Document.Builds.tree_eq ht.builds, ht.headless⟩

/-- In the value of a declaration of a rule in the root. -/
abbrev View.ruleValue (property : String) (frames : List Frame) (parts : Value.Parts) : View :=
  { mode := .value, returns := [.property, .selector], frames, property, parts }

/-- The start of a stylesheet, up to the value of the first declaration of its first rule. -/
theorem reads_ruleStart (ho : o.Plain) {selector property : String} (hproperty : IsWord property)
    (hselector : ∀ rest, Reads o ('{' :: rest) (.bare .selector [] [.root]) text
      { mode := .selector, returns := [], frames := [.root], selector }) (tail : List Char) :
    Reads o tail (.bare .selector [] [.root]) (text ++ "\x7b" ++ property ++ ":")
      (.ruleValue property
        [{ name := trim selector, kind := .selector (fragmentsOf (trim selector)) }, .root] {}) := by
  have hname : Reads o (("\x7b" ++ (property ++ ":")).toList ++ tail)
      (.bare .selector [] [.root]) text
      { mode := .selector, returns := [], frames := [.root], selector } := by
    rw [String.toList_append]
    exact hselector _
  have hcolon : Stops (":".toList ++ tail) := .of_head rfl (by decide)
  have hread := hname.append ((reads_selector_open ho rfl).append ((reads_property_word hproperty hcolon).append
    (reads_property_colon (by rwa [String.empty_append]))))
  simp only [String.append_assoc, String.empty_append] at hread ⊢
  exact hread

/-- A stylesheet of one rule with one declaration, where the value may put something into the block. -/
theorem tree_of_rule_with (ho : o.Plain) {selector property value : String} {parts : Value.Parts} {push : Frame → Frame}
    (hselector : ∀ rest, Reads o ('{' :: rest) (.bare .selector [] [.root]) text
      { mode := .selector, returns := [], frames := [.root], selector }) (hproperty : IsWord property)
    (hvalue : ∀ f g, Reads o ['}', ' '] (.ruleValue property [f, g] {}) value (.ruleValue property [push f, g] parts)) :
    (Document.read o (text ++ "\x7b" ++ property ++ ":" ++ value ++ "\x7d")).1.tree =
        [((push { name := trim selector, kind := .selector (fragmentsOf (trim selector)) }).declare?
          (declared o property parts.all)).node] ∧
      (Document.read o (text ++ "\x7b" ++ property ++ ":" ++ value ++ "\x7d")).1.Headless := by
  have hclose (f g : Frame) : Reads o [' '] (.ruleValue property [f, g] parts) "\x7d"
      (.bare .selector [] [(f.declare? (declared o property parts.all)).close g]) :=
    reads_value_close (.inl rfl) (by simp)
  have hread := (reads_ruleStart ho hproperty hselector _).append ((hvalue _ _).append (hclose _ _))
  rw [← String.append_assoc] at hread
  exact tree_of_reads hread

/-- **A stylesheet of one rule** with one declaration, where it is known how its name and its value are read. -/
theorem tree_of_rule (ho : o.Plain) {selector property value : String} {parts : Value.Parts}
    (hselector : ∀ rest, Reads o ('{' :: rest) (.bare .selector [] [.root]) text
      { mode := .selector, returns := [], frames := [.root], selector }) (hproperty : IsWord property)
    (hvalue : ∀ frames, Reads o ['}', ' '] (.ruleValue property frames {}) value (.ruleValue property frames parts)) :
    (Document.read o (text ++ "\x7b" ++ property ++ ":" ++ value ++ "\x7d")).1.tree =
        [.block (trim selector) (.selector (fragmentsOf (trim selector)))
          (.ofList (declared o property parts.all).toList) []] ∧
      (Document.read o (text ++ "\x7b" ++ property ++ ":" ++ value ++ "\x7d")).1.Headless := by
  obtain ⟨htree, hheadless⟩ := tree_of_rule_with ho hselector hproperty fun f g => hvalue [f, g]
  refine ⟨?_, hheadless⟩
  rw [htree]
  cases declared o property parts.all <;> rfl

/-- **Trees of words** are read as what their nodes make of the root. -/
theorem read_nodes (ho : o.Plain) (h : ∀ n ∈ ns, n.Fits .rules) (hl : ∀ n ∈ ns, l.spacious = true ∨ n.Unmixed) :
    (Document.read o (String.intercalate l.newline (l.nodes 0 ns))).1.tree = (readAllInto o ns .root).before ∧
      (Document.read o (String.intercalate l.newline (l.nodes 0 ns))).1.Headless := by
  apply tree_of_reads
  have hread : Reads o [' '] (.bare (bodyMode .rules) [] [.root])
      (String.intercalate l.newline (l.nodes 0 ns))
      (.bare (bodyMode .rules) [] [readAllInto o ns .root]) :=
    reads_nodes (fun n hn => legible_of_fits ho (h n hn) (hl n hn) 0) (by simp)
  exact hread

end Reader

end Stylesheet
