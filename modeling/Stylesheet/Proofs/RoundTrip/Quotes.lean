import Stylesheet.Proofs.Reader.Comments
import Stylesheet.Proofs.Reader.Delimiters
import Stylesheet.Proofs.Reader.Importance
import Stylesheet.Proofs.Reader.Strings
import Stylesheet.Proofs.RoundTrip.Canonical
import Stylesheet.Proofs.Text.Identifier

/-!
# Values that lose their quotes

A string as the value of a declaration loses its quotes unless it holds space, quotes or parentheses. What is written
then is read again as a value of its own, and not always as the same one: a semicolon ends the declaration, a comment is
a comment, and colors and numbers are put in order part by part. `Survives` says when none of this happens, and
`tree_read_render_string_iff` that the rule is read as it was just then.
-/

namespace Stylesheet.Reader

open Text State List Property Declarations

variable {p value content text : String}
open Value (bareParts IsMark IsRun Tight)

/-! ## Known properties -/

/-- The names of known properties are made up of small letters and hyphens. -/
theorem chars_of_isKnown (h : isKnown p = true) : p.toList ≠ [] ∧ ∀ c ∈ p.toList, c.isLower = true ∨ c = '-' := by
  have hmem : p ∈ always ++ fromLevel2 ++ level3Only ++ levels2And3 ++
      notLevel21 := by
    by_contra hnot
    simp only [mem_append, not_or] at hnot
    obtain ⟨⟨⟨⟨halways, hlevel2⟩, hlevel3⟩, hlevels⟩, hnotLevel⟩ := hnot
    simp [isKnown, levels?, halways, hlevel2, hlevel3, hlevels, hnotLevel] at h
  have hall : (always ++ fromLevel2 ++ level3Only ++ levels2And3 ++
      notLevel21).all (fun name => !name.toList.isEmpty && name.toList.all fun c => c.isLower || c == '-') =
      true := by
    decide +kernel
  simpa using all_eq_true.mp hall p hmem

theorem isWord_of_isKnown (h : isKnown p = true) : IsWord p := by
  obtain ⟨hne, hchars⟩ := chars_of_isKnown h
  have hname (c : Char) (hc : c ∈ p.toList) : isNameChar c = true := by
    rcases hchars c hc with hlower | rfl
    · have halpha : c.isAlpha = true := (congrArg (c.isUpper || ·) hlower).trans (Bool.or_true _)
      simp [isNameChar, Char.isAlphanum, halpha]
    · decide
  exact ⟨hne, fun c hc => isOrdinary_of_isNameChar (hname c hc), fun hmem => absurd (hname _ hmem) (by decide)⟩

/-- A part of a value of the property, put in order. -/
def tidied (property part : String) : String := (tidyPart {} property 0 part).1

theorem lower_trim_of_isKnown (h : isKnown p = true) : lower (trim p) = p := by
  rw [(isWord_of_isKnown h).trim_eq]
  refine lower_eq_self fun c hc => ?_
  rcases (chars_of_isKnown h).2 c hc with hlower | rfl
  · have hrange : 97 ≤ c.val ∧ c.val ≤ 122 := by
      have hdecide : (decide (97 ≤ c.val) && decide (c.val ≤ 122)) = true := hlower
      simpa using hdecide
    exact decide_eq_false fun hupper : c.val ≥ 65 ∧ c.val ≤ 90 => by grind
  · decide

/-- The declaration that a known property and the parts of a value make up. -/
theorem declared_of_isKnown (h : isKnown p = true) (parts : List String) :
    declared {} p parts =
      if Value.joinParts ((cutImportant parts).1.map (tidied p)) = "" then none
      else some (p, ⟨Value.joinParts ((cutImportant parts).1.map (tidied p)), (cutImportant parts).2⟩) := by
  have htidied : (fun part => (tidyPart {} p 1 part).1) = tidied p := funext fun part => tidyPart_line {} p 1 part
  have hempty : p.isEmpty = false := by simpa using (isWord_of_isKnown h).ne_empty
  unfold declared declaration?
  rw [parts_flushPart rfl]
  simp [lower_trim_of_isKnown h, htidied, hempty]

/-! ## One rule -/

/-- A stylesheet of one rule with one declaration. -/
def ruleText (property value : String) : String := "a" ++ "\x7b" ++ property ++ ":" ++ value ++ "\x7d"

/-- A tree of one rule with one declaration. -/
def ruleTree (property value : String) : List Node :=
  [.block "a" (.selector ["a"]) (.ofList [(property, ⟨value, false⟩)]) []]

theorem reads_ruleName (rest : List Char) :
    Reads {} ('{' :: rest) (.bare .selector [] [.root]) "a"
      { mode := .selector, returns := [], frames := [.root], selector := "a" } :=
  reads_selector_word (by decide) ⟨'{', rest, rfl, by decide⟩

theorem plain_default : Options.Plain {} := ⟨rfl, rfl, rfl, by decide⟩

/-- The rule is read as its value is. -/
theorem tree_read_ruleText {parts : Value.Parts} (h : isKnown p = true)
    (hvalue : ∀ frames, Reads {} ['}', ' '] (.ruleValue p frames {}) value (.ruleValue p frames parts)) :
    (Document.read {} (ruleText p value)).1.tree =
        [.block "a" (.selector ["a"]) (.ofList (declared {} p parts.all).toList) []] ∧
      (Document.read {} (ruleText p value)).1.Headless := by
  have hrule := tree_of_rule plain_default reads_ruleName (isWord_of_isKnown h) hvalue
  have htrim : trim "a" = "a" := by decide
  have hfragments : fragmentsOf "a" = ["a"] := by decide
  rw [htrim, hfragments] at hrule
  exact hrule

theorem entries_ofList_singleton {e : Declaration} (h : e.2.text ≠ "") : (ofList [e]).entries = [e] := by
  have hempty : e.2.text.isEmpty = false := by simpa using h
  rw [← nil_append [e], ofList_concat, entries_insert]
  simp [ofList, insertAll, accepts, get?, empty, without, hempty]

/-- What is written for such a tree. -/
theorem render_ruleTree {d : Document} (hd : d.Headless) (htree : d.tree = ruleTree p value)
    (hvalue : value ≠ "") : d.render { template := .highest } = ruleText p value := by
  have hentries := entries_ofList_singleton (e := (p, ⟨value, false⟩)) hvalue
  rw [Document.render_eq rfl hd, htree, ruleTree]
  simp [Layout.nodes, Layout.node, Layout.block, Declarations.isEmpty, hentries, Layout.declarations, Layout.ofOptions,
    Layout.indent, Layout.space, Layout.newline, Value.render, ruleText, String.append_assoc]

/-- The rule has this declaration if its tree is this one. -/
theorem ruleTree_eq_iff (hvalue : value ≠ "") {e? : Option Declaration} (he : ∀ e ∈ e?, e.2.text ≠ "") :
    [Node.block "a" (.selector ["a"]) (.ofList e?.toList) []] = ruleTree p value ↔ e? = some (p, ⟨value, false⟩) := by
  refine ⟨fun htree => ?_, fun hsome => by rw [hsome]; rfl⟩
  simp only [ruleTree, cons.injEq, Node.block.injEq, and_true, true_and] at htree
  have hentries := congrArg entries htree
  rw [entries_ofList_singleton (e := (p, ⟨value, false⟩)) hvalue] at hentries
  cases e? with
  | none => cases hentries
  | some e =>
    rw [Option.toList_some, entries_ofList_singleton (he e rfl)] at hentries
    rw [singleton_inj.mp hentries]

/-! ## The first reading -/

/-- A quoted part stays as it is. -/
theorem tidied_quoted (p content : String) : tidied p ("\"" ++ content ++ "\"") = "\"" ++ content ++ "\"" := by
  have hfirst : '"' ∈ ("\"" ++ content ++ "\"").toList := by simp [String.toList_append]
  rcases tidyPart_cases {} p 0 ("\"" ++ content ++ "\"") with hsame | ⟨hmeasure, -⟩ | hformat
  · exact hsame
  · exact absurd (hmeasure _ hfirst) (by decide)
  · have hnone : dropStart? ("\"" ++ content ++ "\"") "format(" = none := by
      simp [dropStart?, startsWith, String.toList_append]
    rw [quoteFormat?, hnone] at hformat
    cases hformat

/-- A part that is not empty stays so. -/
theorem tidied_ne_empty (p : String) {part : String} (h : part ≠ "") : tidied p part ≠ "" := by
  rcases tidyPart_cases {} p 0 part with hsame | ⟨-, hmeasure⟩ | hformat
  · rwa [tidied, hsame]
  · exact hmeasure.ne_empty
  · intro hempty
    rw [tidied] at hempty
    rw [hempty] at hformat
    unfold quoteFormat? at hformat
    split at hformat
    · split at hformat
      · cases hformat
      · simp at hformat
    · cases hformat

/-- What is left of a string is not empty and has no space at its ends. -/
theorem trim_stringValue (property content : String) :
    stringValue property content ≠ "" ∧ trim (stringValue property content) = stringValue property content := by
  by_cases hkeeps : KeepsQuotes (lower (trim property)) content
  · rw [stringValue, if_pos hkeeps]
    refine ⟨by simp, trim_eq_self ?_ ?_⟩
    · intro c hc
      obtain rfl : '"' = c := by simpa [String.toList_append] using hc
      decide
    · intro c hc
      rw [String.toList_append, getLast?_append] at hc
      obtain rfl : '"' = c := by simpa using hc
      decide
  · rw [stringValue, if_neg hkeeps]
    obtain ⟨-, hcontent, hplain⟩ := not_or.mp hkeeps |>.imp id not_or.mp
    have hspace (c : Char) (hc : c ∈ content.toList) : isSpace c = false := by
      by_contra hspace
      exact hplain (any_eq_true.mpr ⟨c, hc, by simp [needsQuotes, hspace]⟩)
    exact ⟨hcontent, trim_eq_self (fun c hc => hspace c (mem_of_mem_head? hc))
      fun c hc => hspace c (mem_of_getLast? hc)⟩

theorem joinParts_singleton (part : String) : Value.joinParts [part] = part := by
  by_cases hempty : part = ""
  · rw [hempty]
    rfl
  · by_cases hcomma : part = ","
    · rw [hcomma]
      rfl
    · by_cases hmark : part = "!"
      · rw [hmark]
        rfl
      · simp [Value.joinParts, Value.Joined.add, hempty, hcomma, hmark]

/-- **A rule with a string** is read as a rule with one value. -/
theorem tree_read_string (h : isKnown p = true) (hcontent : ∀ c ∈ content.toList, isPlainInString c) :
    (Document.read {} (ruleText p ("\"" ++ content ++ "\""))).1.tree = ruleTree p (tidied p (stringValue p content)) ∧
      (Document.read {} (ruleText p ("\"" ++ content ++ "\""))).1.Headless := by
  obtain ⟨hne, htrim⟩ := trim_stringValue p content
  have hvalue (frames : List Frame) : Reads {} ['}', ' '] (.ruleValue p frames {}) ("\"" ++ content ++ "\"")
      (.ruleValue p frames { word := "" ++ stringValue p content }) := reads_value_string rfl hcontent
  have hall : Value.Parts.all { word := "" ++ stringValue p content } = [stringValue p content] := by
    rw [String.empty_append]
    exact Value.Parts.all_of_trim_eq hne htrim []
  have hdeclared : declared {} p [stringValue p content] = some (p, ⟨tidied p (stringValue p content), false⟩) := by
    have hcut : cutImportant [stringValue p content] = ([stringValue p content], false) := rfl
    rw [declared_of_isKnown h, hcut, map_singleton, joinParts_singleton, if_neg (tidied_ne_empty p hne)]
  have hread := tree_read_ruleText h hvalue
  rw [hall, hdeclared] at hread
  exact hread

/-! ## The second reading -/

/-- The parts end with the mark of importance. -/
def EndsImportant (parts : List String) : Prop :=
  ∃ front word, parts = front ++ ["!", word] ∧ sameLetters word "important" = true

theorem endsImportant_iff {parts : List String} : EndsImportant parts ↔ (cutImportant parts).2 = true := by
  refine ⟨?_, fun h => ?_⟩
  · rintro ⟨front, word, rfl, hletters⟩
    simp [cutImportant, hletters]
  · unfold cutImportant at h
    split at h
    · next word mark rest hreverse =>
      split at h
      · next hmark =>
        simp only [Bool.and_eq_true, beq_iff_eq] at hmark
        refine ⟨rest.reverse, word, ?_, hmark.2⟩
        rw [← hmark.1, ← reverse_reverse parts, hreverse]
        simp
      · cases h
    · cases h

/-- The text is the same value with quotes and without. -/
structure Survives (property text : String) : Prop where
  /-- Nothing in it ends the declaration. -/
  undelimited : Undelimited text
  /-- No comment starts in it. -/
  uncommented : ¬ HoldsComment text.toList
  /-- No blank is put into it. -/
  tight : Tight (bareParts text)
  /-- It does not end with the mark of importance. -/
  unimportant : ¬ EndsImportant (bareParts text)
  /-- The color and the number between each two commas are in order. -/
  tidy : ∀ part ∈ bareParts text, tidied property part = part

/-- The text is read as one value, or with others behind it. -/
def IsUnquoted (text : String) : Prop :=
  text ≠ "" ∧ ∀ c ∈ text.toList, isSpace c = false ∧ c ≠ '\r' ∧ isFlatChar c = true

theorem IsUnquoted.isBareChar (h : IsUnquoted text) (hundelimited : Undelimited text) :
    ∀ c ∈ text.toList, Reader.isBareChar c = true := by
  intro c hc
  obtain ⟨hspace, hreturn, hflat⟩ := h.2 c hc
  obtain ⟨hsemicolon, hbrace⟩ := hundelimited c hc
  simp only [isFlatChar, contains_cons, contains_nil, Bool.not_eq_true', Bool.or_eq_false_iff,
    beq_eq_false_iff_ne] at hflat
  exact isBareChar_iff.mpr ⟨hspace, hreturn, hflat.1, hflat.2.1, hflat.2.2.1, hflat.2.2.2.1, hsemicolon, hbrace⟩

/-- A run stays a run when it is put in order. -/
theorem isRun_tidied (p : String) {part : String} (h : IsRun part) (hparen : '(' ∉ part.toList) :
    IsRun (tidied p part) := by
  rcases tidyPart_cases {} p 0 part with hsame | ⟨-, hmeasure⟩ | hformat
  · rwa [tidied, hsame]
  · refine ⟨hmeasure.ne_empty, fun c hc => ?_⟩
    have hchar := hmeasure.chars c hc
    simp [Value.isMark, Value.ne_of_isMeasureChar hchar (d := ',') (by decide),
      Value.ne_of_isMeasureChar hchar (d := '!') (by decide)]
  · rw [quoteFormat?_eq_none hparen] at hformat
    cases hformat

/-- The marks and runs of a text make up the declaration of this text only if nothing has to be done to them. -/
theorem declared_bareParts_iff (h : isKnown p = true) (htext : IsUnquoted text) :
    declared {} p (bareParts text) = some (p, ⟨text, false⟩) ↔
      Tight (bareParts text) ∧ ¬ EndsImportant (bareParts text) ∧ ∀ part ∈ bareParts text, tidied p part = part := by
  have hblank : ' ' ∉ text.toList := fun hmem => absurd (htext.2 _ hmem).1 (by decide)
  have hparen (part : String) (hpart : part ∈ bareParts text) : '(' ∉ part.toList := fun hmem =>
    absurd (htext.2 _ ((Value.infix_of_mem_bareParts hpart).subset hmem)).2.2 (by decide)
  have hjoin : Value.joinParts ((bareParts text).map (tidied p)) = text ↔
      Tight (bareParts text) ∧ ∀ part ∈ bareParts text, tidied p part = part := by
    refine Value.joinParts_map_bareParts hblank (fun part hmark => ?_) fun part hpart hrun =>
      isRun_tidied p hrun (hparen part hpart)
    rcases hmark with rfl | rfl <;> rfl
  rw [declared_of_isKnown h, endsImportant_iff]
  cases himportant : (cutImportant (bareParts text)).2 with
  | true =>
    refine iff_of_false (fun hsome => ?_) fun hall => hall.2.1 rfl
    split at hsome
    · cases hsome
    · simp at hsome
  | false =>
    rw [(cutImportant_eq_false himportant).1]
    constructor
    · intro hsome
      split at hsome
      · cases hsome
      · simp only [Option.some.injEq, Prod.mk.injEq, Value.mk.injEq, and_true, true_and] at hsome
        exact ⟨(hjoin.mp hsome).1, by simp, (hjoin.mp hsome).2⟩
    · rintro ⟨htight, -, htidy⟩
      rw [hjoin.mpr ⟨htight, htidy⟩, if_neg htext.1]

theorem isFlatChar_of_isOrdinary {c : Char} (h : isOrdinary c = true) : isFlatChar c = true := by
  have htokens : ['"', '\'', '(', '\\'].all (fun c => !isOrdinary c) = true := by decide
  rw [isFlatChar, Bool.not_eq_true', Bool.eq_false_iff]
  intro hcontains
  have htoken := all_eq_true.mp htokens c (contains_iff_mem.mp hcontains)
  rw [h] at htoken
  cases htoken

section

variable (h : isKnown p = true)
include h

section

variable (htext : IsUnquoted text)
include htext

/-- A rule with a value without quotes has no quotes at all. -/
theorem flat_ruleText : ∀ c ∈ (ruleText p text).toList, c ≠ '\r' ∧ isFlatChar c = true := by
  have hproperty := isWord_of_isKnown h
  intro c hc
  simp only [ruleText, String.toList_append, mem_append] at hc
  rcases hc with ((((hc | hc) | hc) | hc) | hc) | hc
  · obtain rfl := mem_singleton.mp hc
    decide
  · obtain rfl := mem_singleton.mp hc
    decide
  · exact ⟨fun hreturn => hproperty.noReturn (hreturn ▸ hc), isFlatChar_of_isOrdinary (hproperty.ordinary c hc)⟩
  · obtain rfl := mem_singleton.mp hc
    decide
  · exact (htext.2 c hc).2
  · obtain rfl := mem_singleton.mp hc
    decide

theorem sourceText_ruleText : sourceText (ruleText p text) = (ruleText p text).toList ++ [' '] :=
  sourceText_eq fun hmem => (flat_ruleText h htext _ hmem).1 rfl

/-- What ends a declaration cannot be in a value without quotes. -/
theorem undelimited_of_tree_read (htree : (Document.read {} (ruleText p text)).1.tree = ruleTree p text) : Undelimited text := by
  have hflat : ∀ c ∈ sourceText (ruleText p text), isFlatChar c = true := by
    rw [sourceText_ruleText h htext]
    intro c hc
    rcases mem_append.mp hc with hc | hc
    · exact (flat_ruleText h htext c hc).2
    · obtain rfl := mem_singleton.mp hc
      decide
  have hdeclares := read_undelimited (o := {}) hflat
  have hmem : Node.block "a" (.selector ["a"]) (.ofList [(p, ⟨text, false⟩)]) [] ∈
      (Document.read {} (ruleText p text)).1.tree := by
    rw [htree]
    exact mem_singleton_self _
  have hentries := hdeclares.of_mem_tree hmem
  rw [entries_ofList_singleton htext.1] at hentries
  exact hentries _ (mem_singleton_self _)

/-- What looks like a comment is one in a value without quotes. -/
theorem one_le_commentCount (hundelimited : Undelimited text) (hcomment : HoldsComment text.toList) :
    1 ≤ Node.commentCountOf (Document.read {} (ruleText p text)).1.tree := by
  obtain ⟨front, back, hsplit, hfront⟩ := hcomment.exists_first
  have hbare := htext.isBareChar hundelimited
  have hbareFront : ∀ c ∈ (String.ofList front).toList, isBareChar c = true := by
    rw [String.toList_ofList]
    exact fun c hc => hbare c (hsplit ▸ mem_append_left _ hc)
  obtain ⟨parts, -, hvalue⟩ := exists_reads_bare hbareFront (by rwa [String.toList_ofList])
  have hend : EndsRun ('/' :: '*' :: (back ++ ['}', ' '])) := .of_cons (by decide) (by decide)
  have hread := (reads_ruleStart plain_default (isWord_of_isKnown h) reads_ruleName _).append
    (hvalue {} _ [.property, .selector] _ p hend)
  have hsource : sourceText (ruleText p text) =
      ("a" ++ "\x7b" ++ p ++ ":" ++ String.ofList front).toList ++ '/' :: '*' :: (back ++ ['}', ' ']) := by
    rw [sourceText_ruleText h htext, ruleText]
    simp [String.toList_append, hsplit]
  obtain ⟨t, before, ht, hbefore, hrun⟩ := hread.2 {} [] shows_start rfl
  obtain ⟨cursor, body, hnext⟩ := next_valueComment (o := {}) ht.mode hbefore (back ++ ['}', ' '])
  have hcount := commentCountOf_tree_run (o := {}) (r := ⟨cursor, t.addComment {} body⟩)
    (addComment_builds ht.builds body)
  rw [Document.read, start, Text.Cursor.start, hsource, hrun, ← run_next, hnext]
  refine le_trans ?_ hcount
  rw [Frame.commentCountOf_cons, Frame.commentCount_push]
  exact Nat.le_add_right_of_le (Nat.le_add_left 1 _)

/-- **A value without quotes** is read as it is if it survives, and only then. -/
theorem tree_read_eq_iff : (Document.read {} (ruleText p text)).1.tree = ruleTree p text ↔ Survives p text := by
  by_cases hplain : Undelimited text ∧ ¬ HoldsComment text.toList
  · obtain ⟨parts, hall, hvalue⟩ := exists_reads_bare (htext.isBareChar hplain.1) hplain.2
    obtain ⟨htree, -⟩ := tree_read_ruleText h fun frames => hvalue {} _ _ frames p (.of_cons (by decide) (by decide))
    rw [htree, hall, ruleTree_eq_iff htext.1 ?nonempty, declared_bareParts_iff h htext]
    case nonempty =>
      intro e he
      rw [declared_of_isKnown h] at he
      split at he
      · cases he
      · next hne =>
        rw [← Option.some.inj he]
        exact hne
    exact ⟨fun ⟨htight, hmark, htidy⟩ => ⟨hplain.1, hplain.2, htight, hmark, htidy⟩,
      fun hsurvives => ⟨hsurvives.tight, hsurvives.unimportant, hsurvives.tidy⟩⟩
  · refine iff_of_false (fun htree => ?_) fun hsurvives => hplain ⟨hsurvives.undelimited, hsurvives.uncommented⟩
    have hundelimited := undelimited_of_tree_read h htext htree
    have hcomment : HoldsComment text.toList := by
      by_contra hnone
      exact hplain ⟨hundelimited, hnone⟩
    have hcount := one_le_commentCount h htext hundelimited hcomment
    rw [htree] at hcount
    exact absurd hcount (by simp [ruleTree, Node.commentCountOf, Node.commentCount])

/-! ## Both readings -/

end

end

theorem isUnquoted_of_isMeasure (h : Value.IsMeasure text) : IsUnquoted text := by
  refine ⟨h.ne_empty, fun c hc => ?_⟩
  have hne {d : Char} (hd : Value.isMeasureChar d = false) : c ≠ d := Value.ne_of_isMeasureChar (h.chars c hc) hd
  refine ⟨isSpace_eq_false (h.chars c hc) (by decide), hne (by decide), ?_⟩
  simp [isFlatChar, hne (d := '"') (by decide), hne (d := '\'') (by decide), hne (d := '(') (by decide),
    hne (d := '\\') (by decide)]

/-- What has lost its quotes is still without space and quotes when it has been put in order. -/
theorem isUnquoted_tidied (hkeeps : ¬ KeepsQuotes p content)
    (hcontent : ∀ c ∈ content.toList, c ≠ '"' ∧ c ≠ '\'' ∧ c ≠ '\\' ∧ c ≠ '\n' ∧ c ≠ '\r') :
    IsUnquoted (tidied p content) := by
  obtain ⟨-, hne, hneeds⟩ := (not_or.mp hkeeps).imp id not_or.mp
  have hneedsNot (c : Char) (hc : c ∈ content.toList) : needsQuotes c = false := by
    by_contra hneed
    exact hneeds (any_eq_true.mpr ⟨c, hc, by simpa using hneed⟩)
  rcases tidyPart_cases {} p 0 content with hsame | ⟨-, hmeasure⟩ | hformat
  · rw [tidied, hsame]
    refine ⟨hne, fun c hc => ?_⟩
    obtain ⟨hdouble, hsingle, hescape, -, hreturn⟩ := hcontent c hc
    have hneed := hneedsNot c hc
    simp only [needsQuotes, Bool.or_eq_false_iff, beq_eq_false_iff_ne] at hneed
    obtain ⟨⟨⟨⟨hspace, -⟩, -⟩, hparen⟩, -⟩ := hneed
    exact ⟨hspace, hreturn, by simp [isFlatChar, hdouble, hsingle, hparen, hescape]⟩
  · exact isUnquoted_of_isMeasure hmeasure
  · have hparen : '(' ∉ content.toList := fun hmem => absurd (hneedsNot _ hmem) (by decide)
    rw [quoteFormat?_eq_none hparen] at hformat
    cases hformat

/-- What is written for a rule with a string. -/
theorem render_read_string (h : isKnown p = true) (hcontent : ∀ c ∈ content.toList, isPlainInString c) :
    (Document.read {} (ruleText p ("\"" ++ content ++ "\""))).1.render { template := .highest } =
      ruleText p (tidied p (stringValue p content)) := by
  obtain ⟨htree, hheadless⟩ := tree_read_string h hcontent
  exact render_ruleTree hheadless htree (tidied_ne_empty p (trim_stringValue p content).1)

/-- **A rule with a string comes back** from being written and read again exactly if the string keeps its quotes or its
content survives without them. -/
theorem tree_read_render_string_iff (p content : String) (h : Property.isKnown p = true)
    (hcontent : ∀ c ∈ content.toList, c ≠ '"' ∧ c ≠ '\'' ∧ c ≠ '\\' ∧ c ≠ '\n' ∧ c ≠ '\r') :
    (Document.read {} ((Document.read {} (ruleText p ("\"" ++ content ++ "\""))).1.render
        { template := .highest })).1.tree =
      (Document.read {} (ruleText p ("\"" ++ content ++ "\""))).1.tree ↔
    KeepsQuotes p content ∨ Survives p (tidied p content) := by
  have hplain (c : Char) (hc : c ∈ content.toList) : isPlainInString c := by
    obtain ⟨hdouble, -, hescape, hnewline, hreturn⟩ := hcontent c hc
    exact ⟨hdouble, hescape, hnewline, hreturn⟩
  rw [render_read_string h hplain, stringValue, lower_trim_of_isKnown h]
  by_cases hkeeps : KeepsQuotes p content
  · -- what is written is what was read
    rw [if_pos hkeeps, tidied_quoted]
    exact iff_of_true rfl (.inl hkeeps)
  · rw [if_neg hkeeps, (tree_read_string h hplain).1, stringValue, lower_trim_of_isKnown h, if_neg hkeeps,
      tree_read_eq_iff h (isUnquoted_tidied hkeeps hcontent)]
    exact (or_iff_right hkeeps).symm

/-- A list of fonts in quotes survives without them. -/
theorem tree_read_render_string_fonts :
    (Document.read {} ((Document.read {} (ruleText "font-family" ("\"" ++ "Arial,Helvetica" ++ "\""))).1.render
        { template := .highest })).1.tree =
      (Document.read {} (ruleText "font-family" ("\"" ++ "Arial,Helvetica" ++ "\""))).1.tree := by
  have hplain : "Arial,Helvetica".toList.all (fun c => !(['"', '\'', '\\', '\n', '\r', ';', '}'].contains c)) = true := by
    decide
  have hchars (c : Char) (hc : c ∈ "Arial,Helvetica".toList) :
      ¬ c = '"' ∧ ¬ c = '\'' ∧ ¬ c = '\\' ∧ ¬ c = '\n' ∧ ¬ c = '\r' ∧ ¬ c = ';' ∧ ¬ c = '}' := by
    simpa using List.all_eq_true.mp hplain c hc
  have htidied : tidied "font-family" "Arial,Helvetica" = "Arial,Helvetica" := by decide +kernel
  have hparts : bareParts "Arial,Helvetica" = ["Arial", ",", "Helvetica"] := by decide
  refine (tree_read_render_string_iff "font-family" "Arial,Helvetica" (by decide +kernel) fun c hc => ?_).mpr (.inr ?_)
  · obtain ⟨hdouble, hsingle, hescape, hnewline, hreturn, -, -⟩ := hchars c hc
    exact ⟨hdouble, hsingle, hescape, hnewline, hreturn⟩
  · rw [htidied]
    have hstar : '*' ∉ "Arial,Helvetica".toList := by decide
    refine ⟨fun c hc => (hchars c hc).2.2.2.2.2, fun hholds => hstar (hholds.subset (by decide)), ?_, ?_, ?_⟩
    · rw [hparts]
      decide
    · rw [endsImportant_iff, hparts]
      decide
    · rw [hparts]
      intro part hpart
      simp only [List.mem_cons, List.not_mem_nil, or_false] at hpart
      rcases hpart with rfl | rfl | rfl <;> decide +kernel

/-- A semicolon in quotes ends the declaration when it has lost them. -/
theorem tree_read_render_string_semicolon :
    (Document.read {} ((Document.read {} (ruleText "font-family" ("\"" ++ "x;y" ++ "\""))).1.render
        { template := .highest })).1.tree ≠
      (Document.read {} (ruleText "font-family" ("\"" ++ "x;y" ++ "\""))).1.tree := by
  have hknown : Property.isKnown "font-family" = true := by decide +kernel
  have hchars (c : Char) (hc : c ∈ "x;y".toList) : isPlainInString c ∧ isSpace c = false ∧ isFlatChar c = true := by
    have hlist : "x;y".toList = ['x', ';', 'y'] := by decide
    rw [hlist] at hc
    simp only [List.mem_cons, List.not_mem_nil, or_false] at hc
    rcases hc with rfl | rfl | rfl <;> exact ⟨⟨by decide, by decide, by decide, by decide⟩, by decide, by decide⟩
  have hplain (c : Char) (hc : c ∈ "x;y".toList) : isPlainInString c := (hchars c hc).1
  have hvalue : tidied "font-family" (stringValue "font-family" "x;y") = "x;y" := by decide +kernel
  have hunquoted : IsUnquoted "x;y" := by
    refine ⟨by decide, fun c hc => ?_⟩
    obtain ⟨⟨-, -, -, hreturn⟩, hspace, hflat⟩ := hchars c hc
    exact ⟨hspace, hreturn, hflat⟩
  rw [render_read_string hknown hplain, (tree_read_string hknown hplain).1, hvalue, Ne, tree_read_eq_iff hknown hunquoted]
  intro hsurvives
  exact (hsurvives.undelimited ';' (by decide)).1 rfl

end Stylesheet.Reader
