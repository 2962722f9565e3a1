import Stylesheet.Proofs.RoundTrip.Quotes

/-!
# Values with a comment in them

A comment in a value goes into the block and leaves the word in front of it as it is (`reads_value_comment`). So what
stands behind the comment goes on with that word: a comment does not keep two words of a value apart, as a blank does
(`tree_read_interrupted`).
-/

namespace Stylesheet.Reader

open Text State List
open Value (IsMeasure joinParts)

variable {o : Options} {tail : List Char}

/-! ## Comments -/

/-- A comment ends with the first star in it that a slash stands behind. -/
theorem cutComment?_of_notMem {body : List Char} (h : '*' ∉ body) (rest : List Char) :
    cutComment? (body ++ '*' :: '/' :: rest) = some body := by
  induction body with
  | nil => rfl
  | cons c body ih =>
    rw [mem_cons, not_or] at h
    obtain ⟨hc, hbody⟩ := h
    rw [cons_append, cutComment?, ih hbody, Option.map_some]
    rintro w rfl -
    exact hc rfl

section Comment

variable {returns : List Mode} {f : Frame} {fs : List Frame} {origin : Keyword.AtBody} {property : String}
  {parts : Value.Parts}

/-- **A comment in a value** does not end the word in front of it. -/
theorem reads_value_comment {body : String} (hstar : '*' ∉ body.toList) (hreturn : '\r' ∉ body.toList) :
    Reads o tail { mode := .value, returns, frames := f :: fs, origin, property, parts } ("/*" ++ body ++ "*/")
      { mode := .value, returns, frames := f.push (.comment body) :: fs, origin, property, parts } := by
  have htext : "/*" ++ body ++ "*/" = String.ofList ('/' :: '*' :: (body.toList ++ ['*', '/'])) := by
    apply String.toList_injective
    simp [String.toList_append]
  rw [htext]
  refine Reads.of_step (by simpa using hreturn) ?_ (fun h => absurd h (by simp)) fun s k hs hescaped hrest => ?_
  · rw [← cons_append, ← cons_append, getLast?_append]
    exact (by decide : some '/' ≠ some '\\')
  refine ⟨s.addComment o body.toList, ?_, ?_⟩
  · have htoken : k.atToken = true := (atToken_eq hescaped hrest).trans (by decide)
    have hcomment : atComment k = true := (atComment_eq hrest).trans (by simp)
    have hcut : cutComment? (k.rest.drop 2) = some body.toList := by
      rw [hrest]
      simpa using cutComment?_of_notMem hstar tail
    have hread : s.readComment o k = (s.addComment o body.toList, body.toList.length + 3) := by
      rw [readComment, hcut]
    rw [step_value hs.mode]
    simp [inValue, hrest, htoken, hcomment, hread]
  · have hbuilds := addComment_builds (o := o) hs.builds body.toList
    rw [String.ofList_toList] at hbuilds
    have hheadless := hs.headless.of_header (header_addComment (o := o) s body.toList)
    have hsame : s.addComment o body.toList = { s with
        line := (s.addComment o body.toList).line, document := (s.addComment o body.toList).document } := by
      unfold addComment
      rw [pushToken_eq]
    rw [hsame] at hbuilds hheadless ⊢
    exact ⟨hs.mode, hs.returns, hbuilds, fun h => absurd h (by simp), hs.selector, hs.property, hs.word, hs.done, hheadless⟩

end Comment

/-! ## Words of letters and digits -/

/-- Letters and digits, at least one of them. -/
def IsPlainWord (word : String) : Prop := word ≠ "" ∧ ∀ c ∈ word.toList, c.isAlphanum = true

instance (word : String) : Decidable (IsPlainWord word) :=
  decidable_of_iff (word ≠ "" ∧ word.toList.all Char.isAlphanum = true) (by rw [all_eq_true, IsPlainWord])

namespace IsPlainWord

variable {u v : String}

theorem append (hu : IsPlainWord u) (hv : IsPlainWord v) : IsPlainWord (u ++ v) := by
  refine ⟨by simp [hu.1], fun c hc => ?_⟩
  rw [String.toList_append] at hc
  exact (mem_append.mp hc).elim (hu.2 c) (hv.2 c)

theorem isWord (hu : IsPlainWord u) : IsWord u := by
  have hname (c : Char) (hc : c ∈ u.toList) : isNameChar c = true := by simp [isNameChar, hu.2 c hc]
  exact ⟨by simpa using hu.1, fun c hc => isOrdinary_of_isNameChar (hname c hc),
    fun hmem => absurd (hname _ hmem) (by decide)⟩

/-- A word that is put in order is a color or a number, or the same word. -/
theorem isMeasure_tidied (hu : IsPlainWord u) (p : String) : IsMeasure (tidied p u) := by
  rcases tidyPart_cases {} p 0 u with hsame | ⟨-, hmeasure⟩ | hformat
  · rw [tidied, hsame]
    exact ⟨hu.1, fun c hc => by simp [Value.isMeasureChar, hu.2 c hc]⟩
  · exact hmeasure
  · have hparen : '(' ∉ u.toList := fun hmem => absurd (hu.2 _ hmem) (by decide)
    rw [quoteFormat?_eq_none hparen] at hformat
    cases hformat

end IsPlainWord

theorem notMem_of_isMeasure {text : String} (h : IsMeasure text) {c : Char} (hc : Value.isMeasureChar c = false) :
    c ∉ text.toList :=
  fun hmem => absurd rfl (Value.ne_of_isMeasureChar (h.chars c hmem) hc)

theorem joinParts_pair {x y : String} (hx : IsMeasure x) (hy : IsMeasure y) : joinParts [x, y] = x ++ " " ++ y := by
  have hmark {z : String} (hz : IsMeasure z) : z ≠ "," ∧ z ≠ "!" := by
    constructor
    · rintro rfl
      exact notMem_of_isMeasure hz (c := ',') (by decide) (by decide)
    · rintro rfl
      exact notMem_of_isMeasure hz (c := '!') (by decide) (by decide)
  have hone := hmark hx
  have htwo := hmark hy
  have hblank : x.push ' ' = x ++ " " := String.push_eq_append ' '
  simp [joinParts, Value.Joined.add, hx.ne_empty, hy.ne_empty, hone, htwo, hblank]

/-! ## Three readings -/

variable {p u v t : String}

/-- One word is the value it is put in order to. -/
theorem declared_word (hp : Property.isKnown p = true) (hu : IsPlainWord u) :
    declared {} p [u] = some (p, ⟨tidied p u, false⟩) := by
  have hcut : cutImportant [u] = ([u], false) := rfl
  rw [declared_of_isKnown hp, hcut, map_singleton, joinParts_singleton, if_neg (tidied_ne_empty p hu.1)]

/-- Two words are a value with a blank in it. -/
theorem declared_words (hp : Property.isKnown p = true) (hu : IsPlainWord u) (hv : IsPlainWord v) :
    declared {} p [u, v] = some (p, ⟨tidied p u ++ " " ++ tidied p v, false⟩) := by
  have hmark : u ≠ "!" := by
    rintro rfl
    exact absurd (hu.2 '!' (by decide)) (by decide)
  have hcut : cutImportant [u, v] = ([u, v], false) := by simp [cutImportant, hmark]
  have hjoin := joinParts_pair (hu.isMeasure_tidied p) (hv.isMeasure_tidied p)
  rw [declared_of_isKnown hp, hcut, map_cons, map_singleton, hjoin, if_neg (by simp)]

/-- A word ends where the rule does. -/
theorem stops_brace : Stops ['}', ' '] := ⟨'}', [' '], rfl, by decide⟩

/-- A rule with one word. -/
theorem tree_read_word (hp : Property.isKnown p = true) (hu : IsPlainWord u) :
    (Document.read {} (ruleText p u)).1.tree = ruleTree p (tidied p u) := by
  have hvalue (frames : List Frame) : Reads {} ['}', ' '] (.ruleValue p frames {}) u
      (.ruleValue p frames { word := "" ++ u }) := reads_part_word (.inl rfl) hu.isWord stops_brace.exists_mem
  have hread := (tree_read_ruleText hp hvalue).1
  rw [String.empty_append, Value.Parts.all_of_word hu.isWord, nil_append, declared_word hp hu] at hread
  exact hread

/-- A rule with two words. -/
theorem tree_read_words (hp : Property.isKnown p = true) (hu : IsPlainWord u) (hv : IsPlainWord v) :
    (Document.read {} (ruleText p (u ++ " " ++ v))).1.tree = ruleTree p (tidied p u ++ " " ++ tidied p v) := by
  have hvalue (frames : List Frame) : Reads {} ['}', ' '] (.ruleValue p frames {}) (u ++ " " ++ v)
      (.ruleValue p frames { word := "" ++ v, done := Value.Parts.all { word := "" ++ u } }) := by
    have hfirst : Stops ((" " ++ v).toList ++ ['}', ' ']) := by
      rw [String.toList_append]
      exact ⟨' ', v.toList ++ ['}', ' '], rfl, by decide⟩
    have hblank : Reads {} (v.toList ++ ['}', ' ']) (.ruleValue p frames { word := "" ++ u }) " "
        (.ruleValue p frames { done := Value.Parts.all { word := "" ++ u } }) := reads_part_blank (.inl rfl) (by simp)
    have hword (done : List String) : Reads {} ['}', ' '] (.ruleValue p frames { done }) v
        (.ruleValue p frames { word := "" ++ v, done }) := reads_part_word (.inl rfl) hv.isWord stops_brace.exists_mem
    rw [String.append_assoc]
    exact (reads_part_word (.inl rfl) hu.isWord hfirst.exists_mem).append (hblank.append (hword _))
  have hread := (tree_read_ruleText hp hvalue).1
  rw [String.empty_append, String.empty_append, Value.Parts.all_of_word hv.isWord, Value.Parts.all_of_word hu.isWord,
    nil_append, singleton_append, declared_words hp hu hv] at hread
  exact hread

/-- A rule with a comment between two words is read as one with one word. -/
theorem tree_read_comment (hp : Property.isKnown p = true) (hu : IsPlainWord u) (hv : IsPlainWord v)
    (hstar : '*' ∉ t.toList) (hreturn : '\r' ∉ t.toList) :
    (Document.read {} (ruleText p (u ++ "/*" ++ t ++ "*/" ++ v))).1.tree =
      [.block "a" (.selector ["a"]) (.ofList [(p, ⟨tidied p (u ++ v), false⟩)]) [.comment t]] := by
  have hvalue (f g : Frame) : Reads {} ['}', ' '] (.ruleValue p [f, g] {}) (u ++ "/*" ++ t ++ "*/" ++ v)
      (.ruleValue p [f.push (.comment t), g] { word := "" ++ u ++ v }) := by
    have hassoc : u ++ "/*" ++ t ++ "*/" ++ v = u ++ ("/*" ++ t ++ "*/" ++ v) := by simp only [String.append_assoc]
    have hslash : Stops (("/*" ++ t ++ "*/" ++ v).toList ++ ['}', ' ']) :=
      ⟨'/', _, by simp only [String.toList_append]; rfl, by decide⟩
    rw [hassoc]
    exact (reads_part_word (.inl rfl) hu.isWord hslash.exists_mem).append ((reads_value_comment hstar hreturn).append
      (reads_part_word (.inl rfl) hv.isWord stops_brace.exists_mem))
  have hread := (tree_of_rule_with plain_default reads_ruleName (isWord_of_isKnown hp) hvalue).1
  have htrim : trim "a" = "a" := by decide
  have hfragments : fragmentsOf "a" = ["a"] := by decide
  rw [htrim, hfragments, String.empty_append, Value.Parts.all_of_word (hu.append hv).isWord, nil_append,
    declared_word hp (hu.append hv)] at hread
  exact hread

/-- **A comment does not keep words apart.** A value with a comment between two words is read as the one word that they
make up without the comment, which is never the value that they make up with a blank between them. -/
theorem tree_read_interrupted (p u v t : String) (hp : Property.isKnown p = true) (hu : IsPlainWord u)
    (hv : IsPlainWord v) (hstar : '*' ∉ t.toList) (hreturn : '\r' ∉ t.toList) :
    ∃ ds ds' : Declarations, ds ≠ ds' ∧
      (Document.read {} (ruleText p (u ++ "/*" ++ t ++ "*/" ++ v))).1.tree
        = [.block "a" (.selector ["a"]) ds [.comment t]] ∧
      (Document.read {} (ruleText p (u ++ v))).1.tree = [.block "a" (.selector ["a"]) ds []] ∧
      (Document.read {} (ruleText p (u ++ " " ++ v))).1.tree = [.block "a" (.selector ["a"]) ds' []] := by
  have hcomment := tree_read_comment hp hu hv hstar hreturn
  have hword := tree_read_word hp (hu.append hv)
  have hwords := tree_read_words hp hu hv
  rw [ruleTree] at hword hwords
  refine ⟨_, _, fun heq => ?_, hcomment, hword, hwords⟩
  have hglued := (hu.append hv).isMeasure_tidied p
  have hentries := congrArg Declarations.entries heq
  rw [entries_ofList_singleton hglued.ne_empty, entries_ofList_singleton (by simp)] at hentries
  -- only one of the two has a blank in it
  have htext : tidied p (u ++ v) = tidied p u ++ " " ++ tidied p v := by simpa using hentries
  have hblank := notMem_of_isMeasure hglued (c := ' ') (by decide)
  rw [htext] at hblank
  exact hblank (by simp [String.toList_append])

/-- Two margins with a comment between them are no number. -/
theorem tree_read_interrupted_margins :
    ∃ ds ds' : Declarations, ds ≠ ds' ∧
      (Document.read {} (ruleText "margin" ("1px" ++ "/*" ++ " two " ++ "*/" ++ "2px"))).1.tree
        = [.block "a" (.selector ["a"]) ds [.comment " two "]] ∧
      (Document.read {} (ruleText "margin" ("1px" ++ "2px"))).1.tree = [.block "a" (.selector ["a"]) ds []] ∧
      (Document.read {} (ruleText "margin" ("1px" ++ " " ++ "2px"))).1.tree = [.block "a" (.selector ["a"]) ds' []] :=
  tree_read_interrupted "margin" "1px" "2px" " two " (by decide +kernel) (by decide +kernel) (by decide +kernel) (by decide)
    (by decide)

/-- **Two words become one** where nothing but a comment stands between them. -/
theorem declarations_read_interrupted_ne :
    ((Document.read {} "a\x7bmargin:1px/**/2px\x7d").1.get? ⟨1⟩).map (·.declarations)
        = some (.ofList [("margin", ⟨"1px2px", false⟩)]) ∧
      ((Document.read {} "a\x7bmargin:1px 2px\x7d").1.get? ⟨1⟩).map (·.declarations)
        = some (.ofList [("margin", ⟨"1px 2px", false⟩)]) ∧
      Declarations.ofList [("margin", ⟨"1px2px", false⟩)] ≠ .ofList [("margin", ⟨"1px 2px", false⟩)] := by
  refine ⟨?_, ?_, by decide +kernel⟩
  · refine read_view (fun d => (d.get? ⟨1⟩).map (·.declarations)) {} _ 40 ?_ ?_ <;> decide +kernel
  · refine read_view (fun d => (d.get? ⟨1⟩).map (·.declarations)) {} _ 40 ?_ ?_ <;> decide +kernel

end Stylesheet.Reader
