import Stylesheet.Proofs.Cascade
import Stylesheet.Proofs.RoundTrip.Nodes
import Mathlib.Data.List.Chain

/-!
# Reading undoes writing

A canonical tree is one that reading has nothing to do on: its declarations are settled, so that no value is shortened
any further, no selector repeats the one in front of it, and its at-rules hold rules only. What is written for such a
tree, in either layout, is read as the tree itself.
-/

namespace Stylesheet

open Text Value List
open Reader (IsPlainEntry)

/-! ## Settled declarations -/

/-- The word stays as it is when the colors and numbers in the values of a property are put in order. -/
def IsTidy (o : Options) (property word : String) : Prop :=
  (shortenNumber o.convertUnit property (mendColor property word 0).1 0).1 = word

instance (o : Options) (property word : String) : Decidable (IsTidy o property word) :=
  inferInstanceAs (Decidable (_ = _))

/-- A declaration that reading does not change. -/
structure IsSettled (o : Options) (e : Declaration) : Prop where
  property : IsWord e.1
  lowercase : ∀ c ∈ e.1.toList, c.isUpper = false
  value : ∃ parts, parts ≠ [] ∧ (∀ part ∈ parts, part = "," ∨ IsWord part ∧ IsTidy o e.1 part) ∧
    e.2.text = joinParts parts

variable {o : Options} {e : Declaration}

theorem IsSettled.isPlainEntry (h : IsSettled o e) : IsPlainEntry e := by
  obtain ⟨parts, hne, hparts, htext⟩ := h.value
  refine ⟨h.property, parts, hne, fun part hpart => ?_, htext⟩
  rcases hparts part hpart with hcomma | ⟨hword, -⟩
  · exact .inr hcomma
  · exact .inl hword

theorem IsSettled.text_ne_empty (h : IsSettled o e) : e.2.text ≠ "" := by
  obtain ⟨-, parts, hne, hparts, htext⟩ := h.isPlainEntry
  intro hempty
  have hpartsOf := partsOf_joinParts hparts
  rw [← htext, hempty] at hpartsOf
  exact hne hpartsOf.symm

theorem Text.lower_eq_self {s : String} (h : ∀ c ∈ s.toList, c.isUpper = false) : lower s = s := by
  have hmap : s.toList.map Char.toLower = s.toList := by
    refine (map_congr_left fun c hc => ?_).trans (map_id _)
    refine dif_neg fun hrange => ?_
    have hupper : c.isUpper = true := decide_eq_true hrange
    exact absurd (hupper.symm.trans (h c hc)) (by decide)
  rw [lower, hmap, String.ofList_toList]

/-- Words hold no parenthesis. -/
theorem Text.quoteFormat?_of_isWord {word : String} (h : IsWord word) : quoteFormat? word = none :=
  quoteFormat?_eq_none fun hmem => absurd (h.ordinary '(' hmem) (by decide)

namespace Reader

open State

/-- Words and commas do not end with the mark of importance. -/
theorem cutImportant_of_isWordOrComma {parts : List String} (h : ∀ part ∈ parts, IsWordOrComma part) :
    cutImportant parts = (parts, false) := by
  unfold cutImportant
  split
  · next word mark rest hreverse =>
    have hmark : mark ≠ "!" := by
      have hmem : mark ∈ parts := by
        rw [← mem_reverse, hreverse]
        simp
      rcases h mark hmem with hword | rfl
      · exact hword.ne (c := '!') (by decide) (by decide)
      · decide
    rw [if_neg (by simp [hmark])]
  · rfl

theorem cutImportant_concat_mark (parts : List String) :
    cutImportant (parts ++ ["!", "important"]) = (parts, true) := by
  simp [cutImportant, sameLetters]

theorem tidyPart_of_isTidy (ho : o.Plain) {property part : String} (h : IsWord part) (htidy : IsTidy o property part)
    (line : Nat) : (tidyPart o property line part).1 = part := by
  unfold IsTidy at htidy
  rw [tidyPart_line]
  unfold tidyPart
  split
  · rfl
  · simp only [ho.preserveCss, Bool.false_eq_true, if_false, htidy, quoteFormat?_of_isWord h, Option.getD_none]

/-- **A settled declaration** is read as it is. -/
theorem declared_of_isSettled (ho : o.Plain) (h : IsSettled o e) : declared o e.1 e.2.written = some e := by
  have hnonempty := h.text_ne_empty
  obtain ⟨property, text, important⟩ := e
  obtain ⟨hproperty, hlower, parts, -, hparts, rfl⟩ := h
  have hwords : ∀ part ∈ parts, IsWordOrComma part := by
    intro part hpart
    exact (hparts part hpart).symm.imp_left And.left
  have hname : lower (trim property) = property := by
    rw [hproperty.trim_eq, lower_eq_self hlower]
  have hcut : cutImportant (written ⟨joinParts parts, important⟩) = (parts, important) := by
    rw [written, partsOf_joinParts hwords]
    cases important with
    | false =>
      rw [if_neg Bool.false_ne_true, append_nil]
      exact cutImportant_of_isWordOrComma hwords
    | true => exact cutImportant_concat_mark parts
  have htidied : parts.map (fun part => (tidyPart o property 1 part).1) = parts := by
    refine (map_congr_left fun part hpart => ?_).trans (map_id _)
    rcases hparts part hpart with rfl | ⟨hword, htidy⟩
    · rfl
    · exact tidyPart_of_isTidy ho hword htidy 1
  have htext : (joinParts parts).isEmpty = false := by simpa using hnonempty
  have hpresent : property.isEmpty = false := by
    have hne := hproperty.ne_empty
    simpa using hne
  unfold declared declaration?
  rw [parts_flushPart rfl]
  simp only [hname, hcut, htidied, htext, hpresent, ho.discardInvalidProperties]
  simp

end Reader

/-- Settled declarations are read one after the other. -/
theorem Frame.foldl_readEntry (ho : o.Plain) {entries : List Declaration} (h : ∀ e ∈ entries, IsSettled o e) (f : Frame) :
    entries.foldl (readEntry o) f = { f with declarations := f.declarations.insertAll entries } := by
  induction entries generalizing f with
  | nil => rfl
  | cons e entries ih =>
    have hentry : f.readEntry o e = f.declare e.1 e.2 := by
      rw [readEntry, Reader.declared_of_isSettled ho (h e mem_cons_self)]
      rfl
    rw [foldl_cons, hentry, ih fun x hx => h x (mem_cons_of_mem _ hx)]
    rfl

/-- **Settled declarations** are read as they are. -/
theorem Frame.readEntries_of_isSettled (ho : o.Plain) {f : Frame} (hf : f.declarations = .empty) {ds : Declarations}
    (h : ∀ e ∈ ds.entries, IsSettled o e) : f.readEntries o ds = { f with declarations := ds } := by
  have hds := Declarations.ofList_entries fun e he => (h e he).text_ne_empty
  rw [readEntries, foldl_readEntry ho h, hf]
  rw [Declarations.ofList] at hds
  rw [hds]

/-! ## Canonical trees -/

/-- The name of a selector. -/
def Node.selectorName? : Node → Option String
  | .block name (.selector _) _ _ => some name
  | _ => none

/-- The second node is not a selector that goes on with the first. -/
def Node.Apart (m n : Node) : Prop := m.selectorName? = none ∨ m.selectorName? ≠ n.selectorName?

/-- A tree that reading has nothing to do on. Neighbours are apart, and so are the nodes in at-rules. -/
inductive Node.Canonical (o : Options) : Node → Prop where
  | selector {name : String} {fragments : List String} {ds : Declarations} (hname : IsName fragments name)
      (hne : ds.entries ≠ []) (hentries : ∀ e ∈ ds.entries, IsSettled o e) :
      Canonical o (.block name (.selector fragments) ds [])
  | atBlock {words : List String} {children : List Node} (hwords : ∀ w ∈ words, IsWord w)
      (hkeyword : words.head?.bind Keyword.atBody? = some .rules) (hne : children ≠ [])
      (hchildren : ∀ n ∈ children, Canonical o n) (hchain : children.IsChain Apart) :
      Canonical o (.block ("@" ++ joinWith " " words) .atBlock .empty children)
  | lineAt {rule : LineAt} (h : rule.IsPlain) : Canonical o (.lineAt rule)

theorem Node.Canonical.fits {n : Node} (h : n.Canonical o) : n.Fits .rules := by
  induction h with
  | selector hname hne hentries =>
    exact .selector hname hne (fun e he => (hentries e he).isPlainEntry) (by simp)
  | atBlock hwords hkeyword hne _ _ ih => exact .rules hwords hkeyword hne ih
  | lineAt h => exact .lineAt h

theorem Node.Canonical.unmixed {n : Node} (h : n.Canonical o) : n.Unmixed := by
  induction h with
  | selector => exact .block (.inr rfl) (by simp)
  | atBlock _ _ _ _ _ ih => exact .block (.inl rfl) ih
  | lineAt => exact .lineAt _

theorem Node.Canonical.isComment {n : Node} (h : n.Canonical o) : n.isComment = false := by
  cases h <;> rfl

/-- A selector starts a block of its own where no selector of its name is last. -/
theorem Frame.enter_of_apart {f : Frame} {name : String}
    (hlast : ∀ m ∈ f.before.getLast?, m.isComment = false ∧ m.selectorName? ≠ some name) :
    f.enter name = ({ name, kind := .selector (Reader.State.fragmentsOf name) }, f) := by
  unfold Frame.enter
  rcases eq_nil_or_concat' f.before with hnil | ⟨front, m, hconcat⟩
  · rw [hnil]
    rfl
  · obtain ⟨hcomment, hname⟩ := hlast m (by rw [hconcat, getLast?_concat]; rfl)
    rw [hconcat, reverse_append, reverse_singleton, singleton_append, dropWhile_cons_of_neg (by simp [hcomment])]
    split
    · next last fragments ds children left heq =>
      obtain ⟨rfl, -⟩ := cons.inj heq
      have hne : last ≠ name := fun hsame => hname (congrArg some hsame)
      rw [if_neg hne]
    · rfl

/-- The node is read as it is behind nodes that it is apart from. -/
def Node.Reproduced (o : Options) (n : Node) : Prop :=
  ∀ f : Frame, f.after = [] → (∀ m ∈ f.before.getLast?, m.isComment = false ∧ m.Apart n) → n.readInto o f = f.push n

/-- Nodes that are apart are read one after the other as they are. -/
theorem Node.readAllInto_of_reproduced {ns : List Node} (h : ∀ n ∈ ns, n.Reproduced o)
    (hcomment : ∀ n ∈ ns, n.isComment = false) {f : Frame} (hafter : f.after = [])
    (hbefore : ∀ m ∈ f.before, m.isComment = false) (hchain : (f.before ++ ns).IsChain Apart) :
    readAllInto o ns f = { f with before := f.before ++ ns } := by
  induction ns generalizing f with
  | nil =>
    rw [readAllInto, append_nil]
  | cons n ns ih =>
    have hfirst : n.readInto o f = f.push n := by
      refine h n mem_cons_self f hafter fun m hm => ⟨hbefore m (mem_of_getLast? hm), ?_⟩
      exact (isChain_append.mp hchain).2.2 m hm n rfl
    have hpushed : ∀ m ∈ (f.push n).before, m.isComment = false := by
      intro m hm
      rcases mem_append.mp hm with hm | hm
      · exact hbefore m hm
      · rw [mem_singleton.mp hm]
        exact hcomment n mem_cons_self
    have hrest := ih (f := f.push n) (fun x hx => h x (mem_cons_of_mem _ hx))
      (fun x hx => hcomment x (mem_cons_of_mem _ hx)) hafter hpushed (by simpa [Frame.push] using hchain)
    rw [readAllInto, hfirst, hrest]
    simp [Frame.push]

/-- **A canonical node** is read as it is. -/
theorem Node.Canonical.reproduced (ho : o.Plain) {n : Node} (h : n.Canonical o) : n.Reproduced o := by
  induction h with
  | @selector name fragments ds hname hne hentries =>
    intro f hafter hlast
    have henter : f.enter name = ({ name, kind := .selector fragments }, f) := by
      rw [← hname.fragmentsOf_eq]
      refine Frame.enter_of_apart fun m hm => ⟨(hlast m hm).1, fun hsome => ?_⟩
      rcases (hlast m hm).2 with hnone | hne
      · rw [hnone] at hsome
        cases hsome
      · exact hne hsome
    rw [readInto, Frame.openBlock, henter, Frame.readEntries_of_isSettled ho rfl hentries, readAllInto]
    simp [Frame.close, Frame.push, Frame.node, hafter]
  | @atBlock words children hwords hkeyword hne hchildren hchain ih =>
    intro f hafter _
    have hempty : ∀ e ∈ Declarations.empty.entries, IsSettled o e := by
      simp [Declarations.empty]
    have hinside : readAllInto o children { name := "@" ++ joinWith " " words, kind := .atBlock }
        = { name := "@" ++ joinWith " " words, kind := .atBlock, before := [] ++ children } :=
      readAllInto_of_reproduced ih (fun n hn => (hchildren n hn).isComment) rfl (by simp) hchain
    rw [readInto, Frame.openBlock, Frame.readEntries_of_isSettled ho rfl hempty, hinside]
    simp [Frame.close, Frame.push, Frame.node, hafter]
  | @lineAt rule h =>
    intro f _ _
    rw [readInto]

/-- **Reading undoes writing** on canonical documents, in either layout: the tree comes out as it was, nothing is said
about the document as a whole, and writing once more gives the same text. -/
theorem read_render (ho : o.Plain) {d : Document} (hd : d.Headless) (h : ∀ n ∈ d.tree, n.Canonical o)
    (hchain : d.tree.IsChain Node.Apart) :
    (Document.read o (d.render o)).1.tree = d.tree ∧ (Document.read o (d.render o)).1.Headless ∧
      (Document.read o (d.render o)).1.render o = d.render o := by
  have hread := Reader.read_nodes (l := Layout.ofOptions o) ho (fun n hn => (h n hn).fits) fun n hn => .inr (h n hn).unmixed
  have hroot : Node.readAllInto o d.tree .root = { Frame.root with before := [] ++ d.tree } :=
    Node.readAllInto_of_reproduced (fun n hn => (h n hn).reproduced ho) (fun n hn => (h n hn).isComment) rfl
      (by simp [Frame.root]) hchain
  rw [← Document.render_eq ho.preserveCss hd, hroot] at hread
  obtain ⟨htree, hheadless⟩ := hread
  refine ⟨htree, hheadless, ?_⟩
  rw [Document.render_eq ho.preserveCss hheadless, htree]
  exact (Document.render_eq ho.preserveCss hd).symm

/-- Declarations for print. -/
def printDeclarations : Declarations := .ofList [("margin", ⟨"0 auto", true⟩), ("font-family", ⟨"serif,fantasy", false⟩)]

/-- A line, and an at-rule around a selector. -/
def printRules : Document where
  blocks := #[
    some { name := "", kind := .atBlock, children := [.lineAt ⟨"layer", "base"⟩, .block ⟨1⟩] },
    some { name := "@media print", kind := .atBlock, children := [.block ⟨2⟩] },
    some { name := "h1 a,p", kind := .selector ["h1 a", "p"], declarations := printDeclarations }]

theorem read_render_printRules :
    (Document.read { template := .standard } (printRules.render { template := .standard })).1.tree = printRules.tree ∧
      (Document.read { template := .standard } (printRules.render { template := .standard })).1.Headless ∧
      (Document.read { template := .standard } (printRules.render { template := .standard })).1.render
        { template := .standard } = printRules.render { template := .standard } := by
  have htree : printRules.tree = [.lineAt ⟨"layer", "base"⟩, .block "@media print" .atBlock .empty
      [.block "h1 a,p" (.selector ["h1 a", "p"]) printDeclarations []]] := rfl
  have hentries : printDeclarations.entries
      = [("margin", ⟨"0 auto", true⟩), ("font-family", ⟨"serif,fantasy", false⟩)] := by decide
  have hname : IsName ["h1 a", "p"] "h1 a,p" := by
    refine ⟨fun p hp => ?_, rfl⟩
    rcases List.mem_pair.mp hp with rfl | rfl
    · exact ⟨["h1", "a"], by decide, by decide, rfl⟩
    · exact ⟨["p"], by decide, by decide, rfl⟩
  have hlower (s : String) (h : s.toList.all (!·.isUpper) = true) : ∀ c ∈ s.toList, c.isUpper = false := by
    simpa using h
  have hsettled : ∀ e ∈ printDeclarations.entries, IsSettled { template := .standard } e := by
    rw [hentries]
    intro e he
    rcases List.mem_pair.mp he with rfl | rfl
    · exact ⟨by decide, hlower "margin" (by decide), ["0", "auto"], by decide, by decide +kernel, by decide⟩
    · exact ⟨by decide, hlower "font-family" (by decide), ["serif", ",", "fantasy"], by decide, by decide +kernel, by decide⟩
  have hselector : Node.Canonical { template := .standard }
      (.block "h1 a,p" (.selector ["h1 a", "p"]) printDeclarations []) :=
    .selector hname (by rw [hentries]; decide) hsettled
  have hmedia : Node.Canonical { template := .standard } (.block "@media print" .atBlock .empty
      [.block "h1 a,p" (.selector ["h1 a", "p"]) printDeclarations []]) := by
    refine @Node.Canonical.atBlock _ ["media", "print"] _ (by decide) (by decide) (by simp) ?_ (.singleton _)
    intro n hn
    rwa [List.mem_singleton.mp hn]
  have hline : Node.Canonical { template := .standard } (.lineAt ⟨"layer", "base"⟩) :=
    .lineAt ⟨by decide, by decide, ["base"], by decide, rfl⟩
  refine read_render ⟨rfl, rfl, rfl, by decide⟩ ⟨rfl, rfl, rfl⟩ ?_ ?_
  · rw [htree]
    intro n hn
    rcases List.mem_pair.mp hn with rfl | rfl
    · exact hline
    · exact hmedia
  · rw [htree]
    exact .cons_cons (.inl rfl) (.singleton _)

end Stylesheet
